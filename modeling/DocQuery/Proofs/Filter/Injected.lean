/-
Filters that an expression takes over as they are, joined with others by "and"
(`accepts_filter_injected`).

A filter is read as its conjuncts, the tests that are joined by "and" through all
`$and` lists (`conjuncts`). A conjunction has the conjuncts of its clauses, up to
merging (`merges_conj`): of two tests under one name, the operators of the later
one may join those of the earlier one (`Merge`). That is the same test where the
name is a field's and the operators are tests of it (`Merge.step`). It is not
where the name is an operator's own, such as `$expr`, or where the operators are
the parts of a reference.
-/
import DocQuery.Proofs.Filter.Connectives
import Mathlib.Logic.Relation

namespace DocQuery.Filter

/-! ## Filters that the database takes -/

/-- Whether a value is a reference to a document of a collection. A field equals it. -/
def isReference : Value → Bool
  | .document d => Document.hasKey d "$ref" && Document.hasKey d "$id"
  | _ => false

/-- Whether a document is a set of operators that a field can have. They are distinct, none is a
part of a reference, and `$options` belongs to a `$regex`. -/
def isOperatorSet (ops : Document) : Bool :=
  isOperators ops && decide ops.keys.Nodup && !ops.hasKey "$ref" && !ops.hasKey "$id"
    && (!ops.hasKey "$options" || ops.hasKey "$regex")

mutual
/-- Whether the database takes a filter. What is under an operator that is on no field and is no
logical one, such as `$expr`, is not looked into. -/
def isQuery : List (String × Value) → Bool
  | [] => true
  | (key, c) :: rest => isQueryEntry key c && isQuery rest
def isQueryEntry (key : String) : Value → Bool
  | .array clauses => !isLogical key || areQueries clauses
  | .document ops =>
    !isLogical key
      && (isOperator key || !isOperators ops || isReference (.document ops) || isOperatorSet ops)
  | _ => !isLogical key
def areQueries : List Value → Bool
  | [] => true
  | .document d :: rest => isQuery d && areQueries rest
  | _ :: _ => false
end

/-- What the database answers to each test of one document. A test under an operator's name is of
its operand as a whole. Two sets of operators on a field are joined by "and". -/
structure Matcher where
  passes : String → Value → Bool
  joined : ∀ {name : String} {a b : Document}, isOperator name = false → isOperatorSet a = true →
    isOperatorSet b = true → (∀ e ∈ b, a.hasKey e.1 = false) →
    passes name (.document (a ++ b)) = (passes name (.document a) && passes name (.document b))

namespace Matcher

mutual
/-- Whether the document passes a filter. -/
def accepts (t : Matcher) : List (String × Value) → Bool
  | [] => true
  | (key, c) :: rest => acceptsEntry t key c && accepts t rest
def acceptsEntry (t : Matcher) (key : String) : Value → Bool
  | .array clauses =>
    if key = "$and" then acceptsEvery t clauses
    else if key = "$or" then acceptsSome t clauses
    else if key = "$nor" then !acceptsSome t clauses
    else t.passes key (.array clauses)
  | c => t.passes key c
def acceptsEvery (t : Matcher) : List Value → Bool
  | [] => true
  | .document d :: rest => accepts t d && acceptsEvery t rest
  | _ :: _ => false
def acceptsSome (t : Matcher) : List Value → Bool
  | [] => false
  | .document d :: rest => accepts t d || acceptsSome t rest
  | _ :: rest => acceptsSome t rest
end

end Matcher

/-! ## Conjuncts -/

mutual
/-- The tests of a filter that are joined by "and". An item of `$and` that is no filter is left
under `$and`. -/
def conjuncts : List (String × Value) → Document
  | [] => []
  | (key, c) :: rest => entryConjuncts key c ++ conjuncts rest
def entryConjuncts (key : String) : Value → Document
  | .array items => if key = "$and" then listConjuncts items else [(key, .array items)]
  | c => [(key, c)]
def listConjuncts : List Value → Document
  | [] => []
  | .document d :: rest => conjuncts d ++ listConjuncts rest
  | item :: rest => ("$and", .array [item]) :: listConjuncts rest
end

theorem conjuncts_append (a b : Document) : conjuncts (a ++ b) = conjuncts a ++ conjuncts b := by
  induction a with
  | nil => rfl
  | cons e rest ih => simp [conjuncts, ih]

@[simp] theorem conjuncts_singleton (k : String) (c : Value) :
    conjuncts [(k, c)] = entryConjuncts k c := by
  simp [conjuncts]

theorem listConjuncts_append (a b : List Value) :
    listConjuncts (a ++ b) = listConjuncts a ++ listConjuncts b := by
  induction a with
  | nil => rfl
  | cons x rest ih => cases x <;> simp [listConjuncts, ih]

@[simp] theorem entryConjuncts_and (items : List Value) :
    entryConjuncts "$and" (.array items) = listConjuncts items := by
  simp [entryConjuncts]

/-- The entries of a filter, each as a clause of its own. -/
theorem listConjuncts_map_single (d : Document) :
    listConjuncts (d.map fun (k, c) => .single k c) = conjuncts d := by
  induction d with
  | nil => rfl
  | cons e rest ih =>
    obtain ⟨k, c⟩ := e
    change conjuncts [(k, c)] ++ listConjuncts _ = conjuncts ((k, c) :: rest)
    rw [ih, conjuncts_singleton, conjuncts]

theorem entryConjuncts_of_ne {c : Value} (hc : ∀ items, c ≠ .array items) (key : String) :
    entryConjuncts key c = [(key, c)] := by
  cases c <;> first | rfl | exact (hc _ rfl).elim

theorem listConjuncts_of_ne {item : Value} (h : ∀ d, item ≠ .document d) (rest : List Value) :
    listConjuncts (item :: rest) = ("$and", .array [item]) :: listConjuncts rest := by
  cases item <;> first | rfl | exact (h _ rfl).elim

/-- **A filter is its conjuncts.** -/
theorem Matcher.accepts_eq_all (t : Matcher) (d : Document) :
    t.accepts d = (conjuncts d).all fun e => t.acceptsEntry e.1 e.2 := by
  refine conjuncts.induct
    (fun d => t.accepts d = (conjuncts d).all fun e => t.acceptsEntry e.1 e.2)
    (fun key c => t.acceptsEntry key c =
      (entryConjuncts key c).all fun e => t.acceptsEntry e.1 e.2)
    (fun items => t.acceptsEvery items =
      (listConjuncts items).all fun e => t.acceptsEntry e.1 e.2)
    ?listed ?otherList ?value ?noItem ?clause ?noClause ?empty ?entry d
  case listed =>
    intro items ih
    simpa [acceptsEntry] using ih
  case otherList =>
    intro key items hk
    simp [entryConjuncts, hk]
  case value =>
    intro key c hc
    simp [entryConjuncts_of_ne hc]
  case noItem => rfl
  case clause =>
    intro d rest ihd ihrest
    rw [acceptsEvery, listConjuncts, List.all_append, ihd, ihrest]
  case noClause =>
    intro item rest hitem _
    rw [listConjuncts_of_ne hitem]
    cases item <;> first | exact (hitem _ rfl).elim | simp [acceptsEvery, acceptsEntry]
  case empty => rfl
  case entry =>
    intro key c rest ihc ihrest
    rw [accepts, conjuncts, List.all_append, ihc, ihrest]

/-- The conjuncts of a filter that the database takes are tests that it takes. -/
theorem isQueryEntry_of_mem_conjuncts {d : Document} (h : isQuery d = true) :
    ∀ e ∈ conjuncts d, isQueryEntry e.1 e.2 = true ∧ e.1 ≠ "$and" := by
  refine conjuncts.induct
    (fun d => isQuery d = true → ∀ e ∈ conjuncts d, isQueryEntry e.1 e.2 = true ∧ e.1 ≠ "$and")
    (fun key c => isQueryEntry key c = true →
      ∀ e ∈ entryConjuncts key c, isQueryEntry e.1 e.2 = true ∧ e.1 ≠ "$and")
    (fun items => areQueries items = true →
      ∀ e ∈ listConjuncts items, isQueryEntry e.1 e.2 = true ∧ e.1 ≠ "$and")
    ?listed ?otherList ?value ?noItem ?clause ?noClause ?empty ?entry d h
  case listed =>
    intro items ih hc
    rw [entryConjuncts_and]
    exact ih (by simpa [isQueryEntry, isLogical] using hc)
  case otherList =>
    intro key items hk hc e he
    simp only [entryConjuncts, hk, if_false, List.mem_singleton] at he
    subst he
    exact ⟨hc, hk⟩
  case value =>
    intro key c hc hv e he
    rw [entryConjuncts_of_ne hc, List.mem_singleton] at he
    subst he
    refine ⟨hv, ?_⟩
    rintro rfl
    cases c <;> first | exact (hc _ rfl).elim | simp [isQueryEntry, isLogical] at hv
  case noItem => simp [listConjuncts]
  case clause =>
    intro d rest ihd ihrest hi e he
    simp only [areQueries, Bool.and_eq_true] at hi
    exact (List.mem_append.1 he).elim (ihd hi.1 e) (ihrest hi.2 e)
  case noClause =>
    intro item rest hitem _ hi
    cases item <;> first | exact (hitem _ rfl).elim | cases hi
  case empty => simp [conjuncts]
  case entry =>
    intro key c rest ihc ihrest hd e he
    simp only [isQuery, Bool.and_eq_true] at hd
    exact (List.mem_append.1 he).elim (ihc hd.1 e) (ihrest hd.2 e)

/-! ## Merging -/

/-- Whether the operators of the second of two tests join those of the first. -/
def areJoined : String × Value → String × Value → Bool
  | (k, .document a), (k', .document b) =>
    k = k' && isOperators a && isOperators b && b.all fun (key, _) => !Document.hasKey a key
  | _, _ => false

/-- One test of a conjunction joins an earlier one. -/
inductive Merge : Document → Document → Prop
  | mk (before between after : Document) {k : String} {a b : Document}
    (h : areJoined (k, .document a) (k, .document b) = true) :
    Merge (before ++ (k, .document a) :: (between ++ (k, .document b) :: after))
      (before ++ (k, .document (b.foldl (fun d (key, c) => Document.insert d key c) a)) ::
        (between ++ after))

/-- Tests of a conjunction that join earlier ones, one after the other. -/
abbrev Merges (es es' : Document) : Prop := Relation.ReflTransGen Merge es es'

theorem Merges.of_eq {es es' : Document} (h : es = es') : Merges es es' := h ▸ .refl

/-- More tests after those that are merged. -/
theorem Merges.append {es es' : Document} (h : Merges es es') (more : Document) :
    Merges (es ++ more) (es' ++ more) := by
  induction h with
  | refl => exact .refl
  | tail _ hstep ih =>
    refine ih.tail ?_
    obtain ⟨before, between, after, hjoined⟩ := hstep
    simpa using Merge.mk before between (after ++ more) hjoined

/-- Merging brings no new names. -/
theorem Merges.notMem_keys {a b es : Document} (h : Merges (a ++ b) es) {key : String}
    (ha : key ∉ a.keys) (hb : key ∉ b.keys) : key ∉ es.keys := by
  induction h with
  | refl => simpa [Document.keys] using And.intro ha hb
  | tail _ hstep ih =>
    obtain ⟨before, between, after, _⟩ := hstep
    simp only [Document.keys, List.map_append, List.map_cons, List.mem_append, List.mem_cons,
      not_or] at ih ⊢
    exact ⟨ih.1, ih.2.1, ih.2.2.1, ih.2.2.2.2⟩

/-! ## Conjunctions merge -/

theorem conjuncts_promote (d : Document) (k : String) (c : Value) :
    conjuncts (promote d k c) = conjuncts d ++ entryConjuncts k c := by
  rw [promote, conjuncts_singleton, entryConjuncts_and, listConjuncts_map_single,
    conjuncts_append, conjuncts_singleton]

theorem merges_addTest (d : Document) (k : String) (c : Value) :
    Merges (conjuncts d ++ entryConjuncts k c) (conjuncts (addTest d k c)) := by
  have hpromote := Merges.of_eq (conjuncts_promote d k c).symm
  unfold addTest
  split
  · rename_i hk
    rw [Document.insert_eq_append hk, conjuncts_append, conjuncts_singleton]
  · rename_i present hk
    split
    · rename_i incoming
      split
      · rename_i hjoin
        obtain ⟨before, after, hd, hinsert⟩ := Document.split_of_get? hk
        have hstep := Merge.mk (conjuncts before) (conjuncts after) [] (k := k) (a := present)
          (b := incoming) (by simpa [areJoined] using hjoin)
        rw [hinsert, hd]
        simpa [conjuncts_append, conjuncts, entryConjuncts] using Relation.ReflTransGen.single hstep
      · exact hpromote
    · exact hpromote
  · exact hpromote

theorem merges_foldl_addTest (d clause : Document) :
    Merges (conjuncts d ++ conjuncts clause)
      (conjuncts (clause.foldl (fun d (k, c) => addTest d k c) d)) := by
  induction clause generalizing d with
  | nil => simpa [conjuncts] using Relation.ReflTransGen.refl
  | cons e rest ih =>
    obtain ⟨k, c⟩ := e
    rw [conjuncts, ← List.append_assoc]
    exact ((merges_addTest d k c).append (conjuncts rest)).trans (ih (addTest d k c))

/-- What is left under `$and` is no list of filters. -/
theorem merges_addTests {d : Document} (hd : "$and" ∉ (conjuncts d).keys) (clause : Document) :
    Merges (conjuncts d ++ conjuncts clause) (conjuncts (addTests d clause)) := by
  unfold addTests
  split
  · rename_i hand
    obtain ⟨c, rfl⟩ := eq_singleton_of_only? hand
    by_cases hc : ∃ items, c = .array items
    · obtain ⟨items, rfl⟩ := hc
      refine .of_eq ?_
      simp [append, Document.get?, Document.insert, listConjuncts_append, listConjuncts]
    · rw [conjuncts_singleton, entryConjuncts_of_ne fun items h => hc ⟨items, h⟩] at hd
      exact absurd (by simp [Document.keys]) hd
  · exact merges_foldl_addTest d clause

/-- Adding a clause adds its conjuncts, up to merging. -/
theorem merges_addClause {d clause : Document} (hd : "$and" ∉ (conjuncts d).keys)
    (hc : "$and" ∉ (conjuncts clause).keys) :
    Merges (conjuncts d ++ conjuncts clause) (conjuncts (addClause d clause)) := by
  refine addClause.induct
    (fun d clause => "$and" ∉ (conjuncts d).keys → "$and" ∉ (conjuncts clause).keys →
      Merges (conjuncts d ++ conjuncts clause) (conjuncts (addClause d clause)))
    (fun d items => "$and" ∉ (conjuncts d).keys → "$and" ∉ (listConjuncts items).keys →
      Merges (conjuncts d ++ listConjuncts items) (conjuncts (addItems d items)))
    ?empty ?listed ?other ?plain ?noItem ?clause ?noClause d clause hd hc
  case empty =>
    intro d _ _
    exact .of_eq (by simp [addClause, conjuncts])
  case listed =>
    intro d items ih hd hc
    simpa [addClause] using ih hd (by simpa using hc)
  case other =>
    intro d key items hk hd _
    simpa [addClause, hk] using merges_addTests hd [(key, .array items)]
  case plain =>
    intro d clause hne hnl hd _
    have heq : addClause d clause = addTests d clause := by
      unfold addClause
      split
      · exact (hne rfl).elim
      · exact (hnl _ _ rfl).elim
      · rfl
    rw [heq]
    exact merges_addTests hd clause
  case noItem =>
    intro d _ _
    exact .of_eq (by simp [addItems, listConjuncts])
  case clause =>
    intro d clause rest ihClause ihRest hd hi
    simp only [listConjuncts, Document.keys, List.map_append, List.mem_append, not_or] at hi
    have hclause := ihClause hd hi.1
    rw [addItems, listConjuncts, ← List.append_assoc]
    exact (Merges.append hclause _).trans (ihRest (Merges.notMem_keys hclause hd hi.1) hi.2)
  case noClause =>
    intro d item rest hitem _ _ hi
    rw [listConjuncts_of_ne hitem] at hi
    exact absurd (by simp [Document.keys]) hi

/-- **A conjunction has the conjuncts of its clauses, up to merging.** -/
theorem merges_conj (clauses : List Document) (h : ∀ c ∈ clauses, "$and" ∉ (conjuncts c).keys) :
    Merges (clauses.flatMap conjuncts) (conjuncts (conj clauses)) := by
  have hfold : ∀ {d : Document}, "$and" ∉ (conjuncts d).keys →
      Merges (conjuncts d ++ clauses.flatMap conjuncts)
        (conjuncts (clauses.foldl addClause d)) := by
    intro d hd
    induction clauses generalizing d with
    | nil => exact .of_eq (by simp)
    | cons c rest ih =>
      have hclause := merges_addClause hd (h c (by simp))
      have hkept := Merges.notMem_keys hclause hd (h c (by simp))
      rw [List.flatMap_cons, ← List.append_assoc]
      exact (Merges.append hclause _).trans (ih (fun c' hc' => h c' (by simp [hc'])) hkept)
  exact hfold (d := always) (by simp [always, conjuncts, Document.keys])

/-! ## What merging keeps -/

/-- Whether all tests that would be joined are tests of a field, and none is a reference. -/
def areApart (es : Document) : Bool :=
  es.all fun a => es.all fun b =>
    !areJoined a b || (!isOperator a.1 && !isReference a.2 && !isReference b.2)

theorem areApart_iff {es : Document} :
    areApart es = true ↔ ∀ a ∈ es, ∀ b ∈ es, areJoined a b = true →
      isOperator a.1 = false ∧ isReference a.2 = false ∧ isReference b.2 = false := by
  simp only [areApart, List.all_eq_true, Bool.or_eq_true, Bool.and_eq_true, Bool.not_eq_true']
  refine forall₂_congr fun a _ => forall₂_congr fun b _ => ?_
  cases areJoined a b <;> simp [and_assoc]

theorem areJoined_iff {k k' : String} {a b : Document} :
    areJoined (k, .document a) (k', .document b) = true ↔
      k = k' ∧ isOperators a = true ∧ isOperators b = true ∧ ∀ e ∈ b, a.hasKey e.1 = false := by
  simp [areJoined, and_assoc]

theorem isOperatorSet_iff {ops : Document} :
    isOperatorSet ops = true ↔ isOperators ops = true ∧ ops.keys.Nodup ∧
      ops.hasKey "$ref" = false ∧ ops.hasKey "$id" = false ∧
      (ops.hasKey "$options" = true → ops.hasKey "$regex" = true) := by
  simp only [isOperatorSet, Bool.and_eq_true, decide_eq_true_eq, Bool.not_eq_true',
    Bool.or_eq_true, and_assoc]
  cases ops.hasKey "$options" <;> simp

/-- Distinct sets of operators are one set. -/
theorem isOperatorSet_append {a b : Document} (ha : isOperatorSet a = true)
    (hb : isOperatorSet b = true) (hab : ∀ e ∈ b, a.hasKey e.1 = false) :
    isOperatorSet (a ++ b) = true := by
  rw [isOperatorSet_iff] at ha hb ⊢
  obtain ⟨hopsa, hdista, hrefa, hida, hoptionsa⟩ := ha
  obtain ⟨hopsb, hdistb, hrefb, hidb, hoptionsb⟩ := hb
  refine ⟨?_, ?_, by simp [Document.hasKey_append, *], by simp [Document.hasKey_append, *], ?_⟩
  · simp only [isOperators, Bool.and_eq_true, List.all_append] at hopsa hopsb ⊢
    refine ⟨?_, hopsa.2, hopsb.2⟩
    simp_all
  · rw [Document.keys, List.map_append, List.nodup_append]
    refine ⟨hdista, hdistb, ?_⟩
    intro key hkey key' hkey' heq
    obtain ⟨e, he, rfl⟩ := List.mem_map.1 hkey
    obtain ⟨e', he', rfl⟩ := List.mem_map.1 hkey'
    have hfresh := hab e' he'
    rw [← heq, Document.hasKey_of_mem he] at hfresh
    cases hfresh
  · simp only [Document.hasKey_append, Bool.or_eq_true]
    exact Or.imp hoptionsa hoptionsb

/-- A test that would be joined, of a field and no reference, is a set of operators. -/
theorem isOperatorSet_of_isQueryEntry {k : String} {ops : Document}
    (h : isQueryEntry k (.document ops) = true) (hk : isOperator k = false)
    (hops : isOperators ops = true) (hr : isReference (.document ops) = false) :
    isOperatorSet ops = true := by
  simp only [isQueryEntry, Bool.and_eq_true] at h
  simpa [hk, hops, hr] using h.2

/-- What would join more operators would join some of them. -/
theorem areJoined_of_append_left {k : String} {a b : Document} (ha : isOperators a = true)
    {e : String × Value} (h : areJoined (k, .document (a ++ b)) e = true) :
    areJoined (k, .document a) e = true := by
  obtain ⟨k', c⟩ := e
  cases c with
  | document ops =>
    rw [areJoined_iff] at h ⊢
    obtain ⟨hk, -, hops, hfresh⟩ := h
    refine ⟨hk, ha, hops, fun e he => ?_⟩
    have hnew := hfresh e he
    rw [Document.hasKey_append, Bool.or_eq_false_iff] at hnew
    exact hnew.1
  | _ => cases h

theorem areJoined_of_append_right {k : String} {a b : Document} (ha : isOperators a = true)
    {e : String × Value} (h : areJoined e (k, .document (a ++ b)) = true) :
    areJoined e (k, .document a) = true := by
  obtain ⟨k', c⟩ := e
  cases c with
  | document ops =>
    rw [areJoined_iff] at h ⊢
    obtain ⟨hk, hops, -, hfresh⟩ := h
    exact ⟨hk, hops, ha, fun e he => hfresh e (List.mem_append_left b he)⟩
  | _ => cases h

/-- Tests that the database takes, and that merging does not change. -/
structure Mergeable (es : Document) : Prop where
  takes : ∀ e ∈ es, isQueryEntry e.1 e.2 = true
  apart : areApart es = true

/-- One merge keeps what the tests say, and that they can be merged. -/
theorem Merge.step {es es' : Document} (h : Merge es es') (hes : Mergeable es) (t : Matcher) :
    (es'.all fun e => t.acceptsEntry e.1 e.2) = (es.all fun e => t.acceptsEntry e.1 e.2) ∧
      Mergeable es' := by
  obtain ⟨before, between, after, hjoined⟩ := h
  rename_i k a b
  obtain ⟨htakes, hapart⟩ := hes
  rw [areApart_iff] at hapart
  obtain ⟨hk, hra, hrb⟩ := hapart (k, .document a) (by simp) (k, .document b) (by simp) hjoined
  obtain ⟨-, hopsa, hopsb, hab⟩ := areJoined_iff.1 hjoined
  have hseta := isOperatorSet_of_isQueryEntry (htakes (k, .document a) (by simp)) hk hopsa hra
  have hsetb := isOperatorSet_of_isQueryEntry (htakes (k, .document b) (by simp)) hk hopsb hrb
  have hset := isOperatorSet_append hseta hsetb hab
  obtain ⟨-, hdist, href, -, -⟩ := isOperatorSet_iff.1 hset
  rw [Document.foldl_insert_of_nodup hdist]
  have hnew : isReference (.document (a ++ b)) = false := by simp [isReference, href]
  have hold : ∀ e ∈ before ++ (k, Value.document (a ++ b)) :: (between ++ after),
      e = (k, .document (a ++ b)) ∨
        e ∈ before ++ (k, .document a) :: (between ++ (k, .document b) :: after) := by
    intro e he
    simp only [List.mem_append, List.mem_cons] at he ⊢
    rcases he with he | he | he | he <;> simp [he]
  refine ⟨?_, ?_, areApart_iff.2 ?_⟩
  · have hmeans : t.acceptsEntry k (.document (a ++ b)) =
        (t.acceptsEntry k (.document a) && t.acceptsEntry k (.document b)) :=
      t.joined hk hseta hsetb hab
    simp only [List.all_append, List.all_cons, hmeans, Bool.and_assoc, Bool.and_left_comm]
  · intro e he
    rcases hold e he with rfl | he
    · have hentry := htakes (k, .document a) (by simp)
      simp only [isQueryEntry, Bool.and_eq_true] at hentry
      simp [isQueryEntry, hentry.1, hset]
    · exact htakes e he
  · -- A test that joins the new one would have joined the earlier of the two.
    intro x hx y hy hxy
    rcases hold x hx with rfl | hx
    · rcases hold y hy with rfl | hy
      · exact ⟨hk, hnew, hnew⟩
      · obtain ⟨-, -, hry⟩ := hapart _ (by simp) y hy (areJoined_of_append_left hopsa hxy)
        exact ⟨hk, hnew, hry⟩
    · rcases hold y hy with rfl | hy
      · obtain ⟨hkx, hrx, -⟩ := hapart x hx _ (by simp) (areJoined_of_append_right hopsa hxy)
        exact ⟨hkx, hrx, hnew⟩
      · exact hapart x hx y hy hxy

/-- However many tests are merged, they say the same. -/
theorem Merges.accepts {es es' : Document} (h : Merges es es') (hes : Mergeable es) (t : Matcher) :
    (es'.all fun e => t.acceptsEntry e.1 e.2) = (es.all fun e => t.acceptsEntry e.1 e.2) := by
  have hrun : (es'.all fun e => t.acceptsEntry e.1 e.2) =
      (es.all fun e => t.acceptsEntry e.1 e.2) ∧ Mergeable es' := by
    induction h with
    | refl => exact ⟨rfl, hes⟩
    | tail _ hstep ih =>
      obtain ⟨hmeans, hmergeable⟩ := Merge.step hstep ih.2 t
      exact ⟨hmeans.trans ih.1, hmergeable⟩
  exact hrun.1

theorem isQuery_keys {d : Document} (h : isQuery d = true) : "$and" ∉ (conjuncts d).keys := by
  intro hk
  obtain ⟨e, he, hand⟩ := List.mem_map.1 hk
  exact (isQueryEntry_of_mem_conjuncts h e he).2 hand

end DocQuery.Filter

namespace DocQuery.Mapping

open DocQuery.Filter

variable {m : Mapping} {p : Param}

/-- **Filters that are taken over are joined by "and".** Let `first`, `last` and the filter of `P`
be filters that the database takes, and let no two of their conjuncts that are under an operator's
own name, or of which one is a reference, have operators that would be joined. Then the filter of
`first && P && last` is there and accepts what all three accept. -/
theorem accepts_filter_injected {P : Expr} {first middle last : Document}
    (hP : m.filter (.lambda [p] P) = .ok middle) (hfirst : isQuery first = true)
    (hmiddle : isQuery middle = true) (hlast : isQuery last = true)
    (hapart : areApart (conjuncts first ++ conjuncts middle ++ conjuncts last) = true) :
    ∃ d, m.filter (.lambda [p]
          (.binary .andAlso (.binary .andAlso (.inject first) P) (.inject last))) = .ok d ∧
      ∀ t : Matcher, t.accepts d = (t.accepts first && t.accepts middle && t.accepts last) := by
  rw [filter_eq_ok] at hP
  obtain ⟨hcheck, hmid⟩ := hP
  have hinject (d : Document) : m.filterOf (.inject d) (.root p.name) = .ok d := by
    rw [filterOf_eq]
    rfl
  refine ⟨conj [conj [first, middle], last], filter_eq_ok.2 ⟨?_, ?_⟩, fun t => ?_⟩
  · exact check_binary _ (check_binary _ rfl hcheck) rfl
  · exact filterOf_andAlso (filterOf_andAlso (hinject first) hmid) (hinject last)
  · have hinner : Merges (conjuncts first ++ conjuncts middle)
        (conjuncts (conj [first, middle])) := by
      simpa using merges_conj [first, middle]
        (by simp [isQuery_keys hfirst, isQuery_keys hmiddle])
    have houter : Merges (conjuncts (conj [first, middle]) ++ conjuncts last)
        (conjuncts (conj [conj [first, middle], last])) := by
      have hkept := Merges.notMem_keys hinner (isQuery_keys hfirst) (isQuery_keys hmiddle)
      simpa using merges_conj [conj [first, middle], last]
        (by simp [hkept, isQuery_keys hlast])
    have htakes : ∀ e ∈ conjuncts first ++ conjuncts middle ++ conjuncts last,
        isQueryEntry e.1 e.2 = true := by
      intro e he
      simp only [List.mem_append] at he
      rcases he with (he | he) | he
      · exact (isQueryEntry_of_mem_conjuncts hfirst e he).1
      · exact (isQueryEntry_of_mem_conjuncts hmiddle e he).1
      · exact (isQueryEntry_of_mem_conjuncts hlast e he).1
    have hmerges := (Merges.append hinner (conjuncts last)).trans houter
    simp only [Matcher.accepts_eq_all, Merges.accepts hmerges ⟨htakes, hapart⟩ t, List.all_append]

/-- `$P` compares with a number. -/
def comparesP (op : String) (n : Int32) : Document :=
  [("$expr", .single op (.array [.string "$P", .int32 n]))]

/-- `comparesP op n && x.S != "b" && last`. -/
def besideText (op : String) (n : Int32) (last : Document) : Expr :=
  .lambda [⟨"x", .any⟩] (.binary .andAlso
    (.binary .andAlso (.inject (comparesP op n))
      (.binary .notEqual (.member (.param ⟨"x", .any⟩) "S") (.literal ⟨.string "b", .string⟩)))
    (.inject last))

/-- A test of the text, and a second comparison of `$P`. -/
def afterText : Document :=
  [("$and", .array [.single "S" (.single "$gt" (.string "a")), .document (comparesP "$gt" 5)])]

/-- The tests of the text share an entry, and the expressions have clauses of their own. -/
theorem accepts_filter_injected_afterText :
    (mk {} {}).filter (besideText "$gt" 1 afterText) =
      .ok [("$and", .array [.document (comparesP "$gt" 1),
        .single "S" (.document [("$ne", .string "b"), ("$gt", .string "a")]),
        .document (comparesP "$gt" 5)])] ∧
    ∀ t : Matcher,
      t.accepts [("$and", .array [.document (comparesP "$gt" 1),
          .single "S" (.document [("$ne", .string "b"), ("$gt", .string "a")]),
          .document (comparesP "$gt" 5)])] =
        (t.accepts (comparesP "$gt" 1) && t.accepts (testOp "S" "$ne" (.string "b")) &&
          t.accepts afterText) := by
  have hmiddle : (mk {} {}).filter (.lambda [⟨"x", .any⟩]
      (.binary .notEqual (.member (.param ⟨"x", .any⟩) "S") (.literal ⟨.string "b", .string⟩))) =
        .ok (testOp "S" "$ne" (.string "b")) := by
    with_unfolding_all rfl
  have hfirst : isQuery (comparesP "$gt" 1) = true := rfl
  have hlast : isQuery afterText = true := rfl
  obtain ⟨d, hd, haccepts⟩ := accepts_filter_injected hmiddle hfirst rfl hlast rfl
  have hfilter : (mk {} {}).filter (besideText "$gt" 1 afterText) =
      .ok [("$and", .array [.document (comparesP "$gt" 1),
        .single "S" (.document [("$ne", .string "b"), ("$gt", .string "a")]),
        .document (comparesP "$gt" 5)])] := by
    with_unfolding_all rfl
  obtain rfl := Except.ok.inj (hfilter.symm.trans hd)
  exact ⟨hfilter, haccepts⟩

/-- A document that passes all tests of its fields and all expressions with one operator. -/
def passesSingle : Matcher where
  passes key c := !isOperator key || match c with
    | .document [_] => true
    | _ => false
  joined hname _ _ _ := by simp [hname]

/-- Two expressions are joined to one, which has two operators. -/
theorem not_accepts_filter_injected :
    (mk {} {}).filter (besideText "$gt" 1 (comparesP "$lt" 5)) =
      .ok [("$expr", .document [("$gt", .array [.string "$P", .int32 1]),
        ("$lt", .array [.string "$P", .int32 5])]), ("S", .single "$ne" (.string "b"))] ∧
    passesSingle.accepts (comparesP "$gt" 1) = true ∧
    passesSingle.accepts (testOp "S" "$ne" (.string "b")) = true ∧
    passesSingle.accepts (comparesP "$lt" 5) = true ∧
    passesSingle.accepts [("$expr", .document [("$gt", .array [.string "$P", .int32 1]),
      ("$lt", .array [.string "$P", .int32 5])]), ("S", .single "$ne" (.string "b"))] = false :=
  ⟨by with_unfolding_all rfl, rfl, rfl, rfl, rfl⟩

end DocQuery.Mapping
