import ScriptPress.Proofs.Number.Magnitude
import ScriptPress.Proofs.Store.History
import ScriptPress.Proofs.Store.Refinement

/-! # Looking the same -/

namespace ScriptPress

open List

/-- What a kind carries besides its name. -/
inductive Payload where
  | none
  | symbol (id : SymbolId)
  | text (value : String)
  | flag (value : Bool)
  | bits (value : UInt64)
  | unary (op : UnaryOp)
  | binary (op : BinaryOp)
  | assign (op : AssignOp)
deriving DecidableEq

def Kind.payload : Kind → Payload
  | property s | .variable s | .catch s | function s | label s | identifier s | member s
  | .break (some s) | .continue (some s) => .symbol s
  | directive t | regExp t | string t => .text t
  | boolean b => .flag b
  | number x => .bits x.toBits
  | unary op => .unary op
  | binary op => .binary op
  | assign op => .assign op
  | _ => .none

inductive Dump where
  | node (name : String) (payload : Payload) (children : List Dump)

theorem Kind.eq_of_payload {k k' : Kind} (hname : k.name = k'.name)
    (hpayload : k.payload = k'.payload) : k = k' := by
  cases k <;> cases k' <;> first
    | rfl
    | (simp only [name, String.reduceEq] at hname; done)
    | skip
  case break.break l l' => cases l <;> cases l' <;> cases hpayload <;> rfl
  case continue.continue l l' => cases l <;> cases l' <;> cases hpayload <;> rfl
  case number.number x y => rw [Float.toBits_inj.mp (Payload.bits.inj hpayload)]
  all_goals
    cases hpayload
    rfl

namespace Tree

variable {α β : Type}

mutual

def dump : Tree α → Dump
  | node _ k cs => .node k.name k.payload (dumpAll cs)

def dumpAll : List (Tree α) → List Dump
  | [] => []
  | c :: cs => c.dump :: dumpAll cs

end

theorem dumpAll_eq (cs : List (Tree α)) : dumpAll cs = cs.map dump := by
  induction cs with
  | nil => rw [dumpAll, map_nil]
  | cons c cs ih => rw [dumpAll, ih, map_cons]

theorem dump_node (m : α) (k : Kind) (cs : List (Tree α)) :
    (node m k cs).dump = .node k.name k.payload (cs.map dump) := by
  rw [dump, dumpAll_eq]

theorem sameAll_iff_forall₂ : ∀ (cs : List (Tree α)) (cs' : List (Tree β)),
    sameAll cs cs' ↔ Forall₂ (fun c c' => c.sameAs c') cs cs'
  | [], [] => by simp [sameAll]
  | [], _ :: _ => by simp [sameAll]
  | _ :: _, [] => by simp [sameAll]
  | c :: cs, c' :: cs' => by
    rw [sameAll, Bool.and_eq_true, sameAll_iff_forall₂ cs cs', forall₂_cons]

theorem sameAs_node (m : α) (k : Kind) (cs : List (Tree α)) (m' : β) (k' : Kind)
    (cs' : List (Tree β)) : (node m k cs).sameAs (node m' k' cs') ↔
      k = k' ∧ Forall₂ (fun c c' => c.sameAs c') cs cs' := by
  rw [sameAs, Bool.and_eq_true, beq_iff_eq, sameAll_iff_forall₂]

theorem sameAs_iff_dump (t : Tree α) :
    ∀ t' : Tree β, t.sameAs t' ↔ t.dump = t'.dump := by
  induction t with
  | node m k cs ih =>
    rintro ⟨m', k', cs'⟩
    have hall : Forall₂ (fun c c' => c.sameAs c') cs cs' ↔
        cs.map dump = cs'.map dump := by
      induction cs generalizing cs' with
      | nil => cases cs' <;> simp
      | cons c cs ihcs =>
        rw [forall_mem_cons] at ih
        cases cs' with
        | nil => simp
        | cons c' cs' =>
          rw [forall₂_cons, ih.1, ihcs ih.2, map_cons, map_cons, cons.injEq]
    rw [sameAs_node, dump_node, dump_node, Dump.node.injEq, hall]
    constructor
    · rintro ⟨rfl, hcs⟩
      exact ⟨rfl, rfl, hcs⟩
    · rintro ⟨hname, hpayload, hcs⟩
      exact ⟨Kind.eq_of_payload hname hpayload, hcs⟩

end Tree

namespace Store

variable {s : Store} {kids : NodeId → List NodeId}

def dump (s : Store) (n : NodeId) : Dump := (s.tree n).dump

def looksLike (s : Store) (a b : NodeId) : Bool := (s.tree a).sameAs (s.tree b)

theorem Links.dump_eq (h : s.Links kids) (n : NodeId) : s.dump n =
      .node (s.kind n).name (s.kind n).payload ((s.children n).map s.dump) := by
  rw [dump, h.tree_eq, Tree.dump_node, map_map]
  rfl

theorem Links.looksLike_iff (h : s.Links kids) (a b : NodeId) : s.looksLike a b ↔
      s.kind a = s.kind b ∧
        Forall₂ (fun c d => s.looksLike c d) (s.children a) (s.children b) := by
  rw [looksLike, h.tree_eq a, h.tree_eq b, Tree.sameAs_node, forall₂_map_left_iff,
    forall₂_map_right_iff]
  rfl

/-- What it means for two nodes of a store to look the same. The comparison goes from the nodes to
their children in step, and no path downwards goes on for ever. -/
structure ComparesDumps (s : Store) : Prop where
  descent : WellFounded fun c n => c ∈ s.children n
  step : ∀ a b, s.looksLike a b ↔ s.kind a = s.kind b ∧
    Forall₂ (fun c d => s.looksLike c d) (s.children a) (s.children b)
  dump : ∀ n, s.dump n = .node (s.kind n).name (s.kind n).payload ((s.children n).map s.dump)
  iff : ∀ a b, s.looksLike a b ↔ s.dump a = s.dump b
  equivalence : Equivalence fun a b => s.looksLike a b
  nan : ∀ a b x y, s.kind a = .number x → s.kind b = .number y → s.children a = [] →
    s.children b = [] → x.isNaN → y.isNaN → s.looksLike a b
  zero : ∀ a b, s.kind a = .number 0 → s.kind b = .number (-0) → s.looksLike a b = false
  copy : ∀ n, s.Has n → Added s (s.tree n) (s.copy n).1 (s.copy n).2 ∧
    (s.copy n).2.looksLike (s.copy n).1 n

end Store

end ScriptPress
