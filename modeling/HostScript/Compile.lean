import HostScript.Code.Generator
import HostScript.Reader.Program

/-! From a text to an artifact. -/

namespace HostScript

/-- Compile a text for an entry point of the given type against what the host publishes. -/
def compile (text : String) (signature : Signature) (host : HostScope) : Except Stop Artifact :=
  match signature.validate with
  | .error cause => .error (.error cause)
  | .ok () =>
    match Program.read (.bind signature host) text with
    | .error reason => .error reason
    | .ok (program, scope) => .ok ⟨signature.params, scope.localCount, program.chunk⟩

end HostScript
