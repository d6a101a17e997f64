/-!
# Values with problems

Readers that never stop at the first problem note it and go on with a default.
-/

namespace RecurrenceCompiler

/-- A value together with the problems noted on the way to it. -/
structure Checked (α : Type) where
  value : α
  problems : List String

namespace Checked

instance : Monad Checked where
  pure a := ⟨a, []⟩
  bind x f := ⟨(f x.value).value, x.problems ++ (f x.value).problems⟩

/-- Note a problem. -/
def note (problem : String) : Checked Unit :=
  ⟨(), [problem]⟩

/-- Note a problem if there is one. -/
def noteIf (bad : Bool) (problem : String) : Checked Unit :=
  if bad then note problem else pure ()

/-- A default in place of something of the wrong shape. -/
def instead (value : α) (problem : String) : Checked α :=
  ⟨value, [problem]⟩

/-- Problems with the place they were found at. -/
def within (place : String) (x : Checked α) : Checked α :=
  ⟨x.value, x.problems.map (place ++ ·)⟩

end Checked

end RecurrenceCompiler
