/-
Dotted names: the steps of a name, as the database reads it.

A name below another has the steps of both (`steps_below`), and a name that is
written from steps without dots has those steps (`steps_intercalate`).
-/
import DocQuery.FieldPath

namespace DocQuery

/-- The steps of a dotted name. -/
def steps (name : String) : List String := (name.toList.splitOn '.').map String.ofList

theorem steps_below (a b : String) : steps (a ++ "." ++ b) = steps a ++ steps b := by
  simp [steps, List.splitOn_append_cons_self]

theorem steps_ne_nil (name : String) : steps name ≠ [] := by
  simp [steps]

theorem steps_intercalate {path : List String} (hne : path ≠ [])
    (h : ∀ k ∈ path, '.' ∉ k.toList) : steps (String.intercalate "." path) = path := by
  have hsplit : (String.intercalate "." path).toList.splitOn '.' = path.map String.toList := by
    rw [String.toList_intercalate]
    exact List.splitOn_intercalate '.' (by simpa using h) (by simpa using hne)
  rw [steps, hsplit]
  simp

/-- A name without dots is one step. -/
theorem steps_of_not_mem {name : String} (h : '.' ∉ name.toList) : steps name = [name] := by
  have hsteps : steps (String.intercalate "." [name]) = [name] :=
    steps_intercalate (by simp) (by simpa using h)
  rwa [String.intercalate_singleton] at hsteps

/-- The name of a path that is one step longer. -/
theorem intercalate_below {path : List String} (hne : path ≠ []) (element : String) :
    String.intercalate "." (path ++ [element]) = String.intercalate "." path ++ "." ++ element := by
  rw [String.intercalate_append_of_ne_nil hne (by simp), String.intercalate_singleton]

end DocQuery
