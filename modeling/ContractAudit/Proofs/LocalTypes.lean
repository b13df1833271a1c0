import ContractAudit.Proofs.Knowledge

/-! What is known of the classes of variables. Main statement: a call on a variable goes to the
classes that the last binding of the variable tells, among the bindings that are heard. -/
namespace ContractAudit.Throws
variable {s : Setting} {c : Scan} {i : Index} {var : String}

/-- How a variable gets its value. -/
inductive Binding where
  | param (p : ParamInfo)
  | assigned (op : AssignOp) (value : Expr)
  /-- As the key or the value of a loop. -/
  | looped
  | caught
  | silent (how : Silent)

/-- The classes of a parameter's type that are declared. -/
def paramClasses (i : Index) (p : ParamInfo) : List String :=
  match p.type with
  | some t => t.classNames.filter i.contains
  | none => []

namespace Binding

/-- Does a binding change what is known of its variable? -/
def isHeard (i : Index) : Binding → Bool
  | param p => !(paramClasses i p).isEmpty
  | assigned .. | looped | caught => true
  | silent _ => false

/-- What is known of a variable after a binding that is heard. -/
def known (s : Setting) : Binding → Option (List String)
  | param p => some (paramClasses s.index p)
  | assigned op value => (Scan.made? s op value).map ([·])
  | looped | caught | silent _ => none

/-- What is known after one more binding. -/
def update (s : Setting) (before : Option (List String)) (b : Binding) : Option (List String) :=
  if b.isHeard s.index then b.known s else before

end Binding

/- Bodies that bind a variable `w` and call a method on it. -/
namespace Sample

/-- `catch (E) {}` -/
def clause : Catch := ⟨default, [⟨"E", some "E", default⟩], none, ⟨default, []⟩⟩

/-- The pattern `[$w]`. -/
def pattern : Expr := .items default .array [⟨none, .var default "w", false, false⟩]

end Sample

end ContractAudit.Throws
