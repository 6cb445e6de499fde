/-
How the database reads a filter on a stored document.

What a single value passes is left open (`Server`). A name is followed through
embedded documents; where it meets an array, some document in it has to pass the
test of the rest of the name, and `$elemMatch` asks for one that passes a filter.
The opposite operators are read as the opposites (`holds`), so on a name through
an array they ask about every item.

A field below an array of documents passes a test if that field of some item does
(`field_below`), and `$elemMatch` holds of an array if some item passes the
filter (`field_elemMatch`).
-/
import DocQuery.Proofs.Dotted
import DocQuery.Proofs.Filter.Meaning

namespace DocQuery

open DocQuery.Filter

/-- What the value of a field, or none if there is no such field, passes. -/
structure Server where
  passes : String → Value → Option Value → Bool

namespace Server

mutual
/-- Whether the place that a path leads to in a document passes an operator. -/
def atDocument (srv : Server) : List (String × Value) → List String → String → Value → Bool
  | _, [], _, _ => false
  | [], _ :: _, op, x => srv.passes op x none
  | (k, v) :: rest, key :: path, op, x =>
    if k = key then atValue srv v path op x else atDocument srv rest (key :: path) op x
termination_by structural d => d
def atValue (srv : Server) : Value → List String → String → Value → Bool
  | .array items, [], op, x =>
    match op, x with
    | "$elemMatch", .document body => someMatches srv items body
    | op, x => srv.passes op x (some (.array items))
  | .array items, key :: path, op, x => atItems srv items (key :: path) op x
  | .document d, key :: path, op, x => atDocument srv d (key :: path) op x
  | v, path, op, x => srv.passes op x (if path.isEmpty then some v else none)
termination_by structural v => v
def atItems (srv : Server) : List Value → List String → String → Value → Bool
  | [], _, _, _ => false
  | .document d :: rest, path, op, x => atDocument srv d path op x || atItems srv rest path op x
  | _ :: rest, path, op, x => atItems srv rest path op x
termination_by structural vs => vs
/-- Whether some document of a list passes a filter. -/
def someMatches (srv : Server) : List Value → Document → Bool
  | [], _ => false
  | .document d :: rest, body =>
    holds ⟨fun name op x => atDocument srv d (steps name) op x, fun _ _ => false⟩ body
      || someMatches srv rest body
  | _ :: rest, body => someMatches srv rest body
termination_by structural vs => vs
end

/-- The leaf tests that a document passes. -/
def reads (srv : Server) (d : Document) : Valuation :=
  ⟨fun name op x => srv.atDocument d (steps name) op x, fun _ _ => false⟩

/-- Whether a document passes a filter. -/
def accepts (srv : Server) (filter d : Document) : Bool := holds (srv.reads d) filter

open Classical in
/-- The server on which fields pass no other tests than those for equality. -/
noncomputable def equality : Server where
  passes op x stored := op = "$eq" && stored.getD .null = x

end Server

/-- The documents in an array, if it has nothing else. -/
def allDocuments? : List Value → Option (List Document)
  | [] => some []
  | .document d :: rest => (allDocuments? rest).map (d :: ·)
  | _ :: _ => none

/-- The documents of the array at the end of a path through embedded documents. -/
def documentsAt? : List String → Document → Option (List Document)
  | [], _ => none
  | [key], d =>
    match d.get? key with
    | some (.array items) => allDocuments? items
    | _ => none
  | key :: path, d =>
    match d.get? key with
    | some (.document inner) => documentsAt? path inner
    | _ => none

theorem eq_map_of_allDocuments? {items : List Value} {ds : List Document}
    (h : allDocuments? items = some ds) : items = ds.map .document := by
  fun_induction allDocuments? items generalizing ds with
  | case1 => cases h; rfl
  | case2 d rest ih =>
    obtain ⟨ds', hds, rfl⟩ := Option.map_eq_some_iff.1 h
    rw [ih hds, List.map_cons]
  | case3 => cases h

namespace Server

variable (srv : Server)

theorem atDocument_cons (d : Document) (key : String) (path : List String) (op : String)
    (x : Value) :
    srv.atDocument d (key :: path) op x =
      match d.get? key with
      | some v => srv.atValue v path op x
      | none => srv.passes op x none := by
  induction d with
  | nil => rfl
  | cons e rest ih =>
    obtain ⟨k, v⟩ := e
    by_cases hk : k = key
    · simp [atDocument, Document.get?, hk]
    · simp only [atDocument, Document.get?, hk, if_false, ih]

theorem atItems_map (ds : List Document) (path : List String) (op : String) (x : Value) :
    srv.atItems (ds.map .document) path op x = ds.any fun d => srv.atDocument d path op x := by
  induction ds with
  | nil => rfl
  | cons d rest ih => simp only [List.map_cons, atItems, ih, List.any_cons]

theorem someMatches_map (ds : List Document) (body : Document) :
    srv.someMatches (ds.map .document) body = ds.any fun d => srv.accepts body d := by
  induction ds with
  | nil => rfl
  | cons d rest ih =>
    simp only [List.map_cons, someMatches, ih, List.any_cons]
    rfl

/-- Below an array of documents, some item has to pass. -/
theorem atDocument_append {p q : List String} {d : Document} {ds : List Document}
    (hp : documentsAt? p d = some ds) (hq : q ≠ []) (op : String) (x : Value) :
    srv.atDocument d (p ++ q) op x = ds.any fun d => srv.atDocument d q op x := by
  obtain ⟨key, path, rfl⟩ := List.exists_cons_of_ne_nil hq
  fun_induction documentsAt? p d with
  | case1 => cases hp
  | case2 k d items hk =>
    rw [eq_map_of_allDocuments? hp] at hk
    rw [List.singleton_append, atDocument_cons, hk, ← atItems_map]
    rfl
  | case3 => cases hp
  | case4 k rest d hne inner hk ih =>
    rw [List.cons_append, atDocument_cons, hk, ← ih hp]
    cases rest <;> rfl
  | case5 => cases hp

theorem atDocument_elemMatch {p : List String} {d : Document} {ds : List Document}
    (hp : documentsAt? p d = some ds) (body : Document) :
    srv.atDocument d p "$elemMatch" (.document body) = ds.any fun d => srv.accepts body d := by
  fun_induction documentsAt? p d with
  | case1 => cases hp
  | case2 k d items hk =>
    rw [eq_map_of_allDocuments? hp] at hk
    rw [atDocument_cons, hk, ← someMatches_map]
    rfl
  | case3 => cases hp
  | case4 k rest d hne inner hk ih =>
    rw [atDocument_cons, hk, ← ih hp]
    cases rest with
    | nil => cases hp
    | cons k' rest => rfl
  | case5 => cases hp

/-- A field below an array of documents passes a test if that field of some item does. -/
theorem field_below {array : String} {d : Document} {ds : List Document}
    (h : documentsAt? (steps array) d = some ds) (name op : String) (x : Value) :
    (srv.reads d).field (array ++ "." ++ name) op x =
      ds.any fun d => (srv.reads d).field name op x := by
  simp only [reads, steps_below]
  exact srv.atDocument_append h (steps_ne_nil name) op x

/-- An array has an item that matches if some item passes the filter. -/
theorem field_elemMatch {array : String} {d : Document} {ds : List Document}
    (h : documentsAt? (steps array) d = some ds) (body : Document) :
    (srv.reads d).field array "$elemMatch" (.document body) =
      ds.any fun d => srv.accepts body d :=
  srv.atDocument_elemMatch h body

theorem accepts_elemMatch {array : String} (hn : isOperator array = false) {d : Document}
    {ds : List Document} (h : documentsAt? (steps array) d = some ds) (body : Document) :
    srv.accepts (testOp array "$elemMatch" (.document body)) d = ds.any (srv.accepts body) := by
  have hop : isOperator "$elemMatch" = true := rfl
  rw [accepts, holds_testOp hn hop]
  exact srv.field_elemMatch h body

end Server
end DocQuery
