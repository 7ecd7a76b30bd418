import ScriptPress.Command.Memory
import ScriptPress.Main
import ScriptPress.Proofs.Simplify.Bindings
import ScriptPress.Proofs.Meaning.Closed
import ScriptPress.Proofs.Print.Modes
import ScriptPress.Proofs.Print.Roundtrip
import ScriptPress.Proofs.Marks.Layout
import ScriptPress.Proofs.Usage.Behaviour
import ScriptPress.Proofs.Usage.Partition
import ScriptPress.Proofs.Usage.Rescan
import ScriptPress.Proofs.Simplify.Again
import ScriptPress.Proofs.Program.Labels
import ScriptPress.Proofs.Print.RegExp
import ScriptPress.Proofs.Program.Hoisting
import ScriptPress.Proofs.Program.Provided
import ScriptPress.Proofs.Meaning.Parts
import ScriptPress.Proofs.Program.Prologue
import ScriptPress.Proofs.Store.Dump
import ScriptPress.Proofs.Text.Quoted
import ScriptPress.Proofs.Number.Denotation
import ScriptPress.Proofs.Number.Reading
