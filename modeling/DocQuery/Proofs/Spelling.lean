/-
Two spellings of a call of a sequence method: on its receiver, or on a class with
the receiver as the first argument.

`Expr.Respelled` relates an expression to the same one with some calls on a
receiver written as calls on a class. Known values and types are the same for both
(`Respelled.known?_eq`, `Respelled.typeOf_eq`), and both pass or both fail the
check of their scopes (`Respelled.check`). A stored field is followed through calls
on a receiver only, so that nothing is respelled in an expression that reads one
(`Respelled.eq_of_fieldPath?`), or in a selector that copies stored fields
(`Mapping.eq_of_inclusion?`).
-/
import DocQuery.Filter.Predicate
import DocQuery.Inclusion
import DocQuery.Proofs.Result

namespace DocQuery

/-! ## Results that are kept -/

variable {α β : Type}

/-- What the second computation gives, the first gives too. -/
def Refines (x x' : Result α) : Prop := ∀ a, x' = .ok a → x = .ok a

namespace Refines

theorem refl (x : Result α) : Refines x x := fun _ h => h

theorem of_error {x : Result α} {e : Error} : Refines x (.error e) := fun _ h => nomatch h

theorem bind {x x' : Result α} {f f' : α → Result β} (hx : Refines x x')
    (hf : ∀ a, Refines (f a) (f' a)) : Refines (x >>= f) (x' >>= f') := by
  intro b hb
  obtain ⟨a, ha, hb⟩ := bind_eq_ok.1 hb
  exact bind_eq_ok.2 ⟨a, hx a ha, hf a b hb⟩

theorem map {x x' : Result α} (f : α → β) (hx : Refines x x') : Refines (f <$> x) (f <$> x') := by
  intro b hb
  obtain ⟨a, ha, hb⟩ := map_eq_ok.1 hb
  exact map_eq_ok.2 ⟨a, hx a ha, hb⟩

end Refines

/-- Something is found only where something was found before. -/
theorem exists_of_bind_eq_some {x : Result (Option α)} {f : Option α → Result (Option β)} {b : β}
    (h : x >>= f = .ok (some b)) (hnone : f none = .ok none) :
    ∃ a, x = .ok (some a) ∧ f (some a) = .ok (some b) := by
  obtain ⟨r, hr, h⟩ := bind_eq_ok.1 h
  cases r with
  | none =>
    rw [hnone] at h
    cases h
  | some a => exact ⟨a, hr, h⟩

namespace Expr

/-- Whether the only argument of a call is a condition that may be written with a longer path. -/
def itemsCollapse : List Expr → Bool
  | [predicate] => predicate.asUnaryLambda?.any fun (_, body) => Filter.collapsible body
  | _ => false

/-- Inside a condition on array items, a call of `Any` keeps whether its own condition may be
written with a longer path. -/
def SameCollapse (inItem : Bool) (method : String) (args args' : List Expr) : Prop :=
  inItem = true → method = "Any" → itemsCollapse args = itemsCollapse args'

mutual
/-- An expression, and the same one with some calls on a receiver written as calls on a class. The
flag that `SameCollapse` asks for is `k` inside lambdas. -/
inductive Respelled (k : Bool) : Bool → Expr → Expr → Prop
  | literal {b : Bool} (l : Literal) : Respelled k b (.literal l) (.literal l)
  | param {b : Bool} (p : Param) : Respelled k b (.param p) (.param p)
  | inject {b : Bool} (filter : Document) : Respelled k b (.inject filter) (.inject filter)
  | member {b : Bool} {t t' : Expr} (name : String) (ht : Respelled k b t t') :
      Respelled k b (.member t name) (.member t' name)
  | call {b : Bool} {t t' : Expr} {method : String} {args args' : List Expr}
      (ht : Respelled k b t t') (ha : RespelledAll k b args args')
      (hc : SameCollapse b method args args') :
      Respelled k b (.call t method args) (.call t' method args')
  /-- The call itself is respelled. -/
  | onClass {b : Bool} {t t' : Expr} {owner method : String} {args args' : List Expr}
      (ho : takesSource owner method = true) (ht : Respelled k b t t')
      (ha : RespelledAll k b args args') (hc : SameCollapse b method args args') :
      Respelled k b (.call t method args) (.staticCall owner method (t' :: args'))
  | staticCall {b : Bool} {owner method : String} {args args' : List Expr}
      (ha : RespelledAll k b args args') (hc : SameCollapse b method args.tail args'.tail) :
      Respelled k b (.staticCall owner method args) (.staticCall owner method args')
  | index {b : Bool} {t t' i i' : Expr} (ht : Respelled k b t t') (hi : Respelled k b i i') :
      Respelled k b (.index t i) (.index t' i')
  | not {b : Bool} {e e' : Expr} (h : Respelled k b e e') : Respelled k b (.not e) (.not e')
  | negate {b : Bool} {e e' : Expr} (h : Respelled k b e e') :
      Respelled k b (.negate e) (.negate e')
  | convert {b : Bool} {e e' : Expr} (type : ValueType) (h : Respelled k b e e') :
      Respelled k b (.convert e type) (.convert e' type)
  | quote {b : Bool} {e e' : Expr} (h : Respelled k b e e') : Respelled k b (.quote e) (.quote e')
  | binary {b : Bool} {l l' r r' : Expr} (op : BinaryOp) (hl : Respelled k b l l')
      (hr : Respelled k b r r') : Respelled k b (.binary op l r) (.binary op l' r')
  | conditional {b : Bool} {t t' x x' y y' : Expr} (ht : Respelled k b t t')
      (hx : Respelled k b x x') (hy : Respelled k b y y') :
      Respelled k b (.conditional t x y) (.conditional t' x' y')
  | object {b : Bool} {members members' : List (String × Expr)} (typeName : Option String)
      (hm : RespelledMembers k b members members') :
      Respelled k b (.object typeName members) (.object typeName members')
  | copy {b : Bool} {source source' : Expr} {items items' : List Expr} (kind : CollectionKind)
      (hs : Respelled k b source source') (hi : RespelledAll k b items items') :
      Respelled k b (.collection kind (some source) items) (.collection kind (some source') items')
  | list {b : Bool} {items items' : List Expr} (kind : CollectionKind)
      (hi : RespelledAll k b items items') :
      Respelled k b (.collection kind none items) (.collection kind none items')
  | lambda {b : Bool} {body body' : Expr} (params : List Param) (h : Respelled k k body body') :
      Respelled k b (.lambda params body) (.lambda params body')
  | typeTest {b : Bool} {e e' : Expr} (typeName : String) (exact : Bool) (h : Respelled k b e e') :
      Respelled k b (.typeTest e typeName exact) (.typeTest e' typeName exact)
inductive RespelledAll (k : Bool) : Bool → List Expr → List Expr → Prop
  | nil {b : Bool} : RespelledAll k b [] []
  | cons {b : Bool} {e e' : Expr} {rest rest' : List Expr} (h : Respelled k b e e')
      (hr : RespelledAll k b rest rest') : RespelledAll k b (e :: rest) (e' :: rest')
inductive RespelledMembers (k : Bool) : Bool → List (String × Expr) → List (String × Expr) → Prop
  | nil {b : Bool} : RespelledMembers k b [] []
  | cons {b : Bool} {e e' : Expr} {rest rest' : List (String × Expr)} (name : String)
      (h : Respelled k b e e') (hr : RespelledMembers k b rest rest') :
      RespelledMembers k b ((name, e) :: rest) ((name, e') :: rest')
end

namespace Respelled

variable {k b : Bool} {e e' : Expr}

mutual
theorem refl (b : Bool) : ∀ e : Expr, Respelled k b e e
  | .literal l => .literal l
  | .param p => .param p
  | .inject filter => .inject filter
  | .member t name => .member name (refl b t)
  | .call t _ args => .call (refl b t) (reflAll b args) fun _ _ => rfl
  | .staticCall _ _ args => .staticCall (reflAll b args) fun _ _ => rfl
  | .index t i => .index (refl b t) (refl b i)
  | .not e => .not (refl b e)
  | .negate e => .negate (refl b e)
  | .convert e type => .convert type (refl b e)
  | .quote e => .quote (refl b e)
  | .binary op l r => .binary op (refl b l) (refl b r)
  | .conditional t x y => .conditional (refl b t) (refl b x) (refl b y)
  | .object typeName members => .object typeName (reflMembers b members)
  | .collection kind (some source) items =>
    .copy kind (refl b source) (reflAll b items)
  | .collection kind none items => .list kind (reflAll b items)
  | .lambda params body => .lambda params (refl k body)
  | .typeTest e typeName exact => .typeTest typeName exact (refl b e)
theorem reflAll (b : Bool) : ∀ es : List Expr, RespelledAll k b es es
  | [] => .nil
  | e :: rest => .cons (refl b e) (reflAll b rest)
theorem reflMembers (b : Bool) : ∀ ms : List (String × Expr), RespelledMembers k b ms ms
  | [] => .nil
  | (name, e) :: rest => .cons name (refl b e) (reflMembers b rest)
end

theorem strip (h : Respelled k b e e') : Respelled k b e.strip e'.strip := by
  induction e' using Expr.strip.induct generalizing e with
  | case1 inner ih => cases h with | quote h => exact (ih h :)
  | case2 operand type ih => cases h with | convert _ h => exact (ih h :)
  | case3 e' hq hc =>
    have h' := h
    cases h
    case quote => exact absurd rfl (hq _)
    case convert => exact absurd rfl (hc _ _)
    all_goals exact h'

/-- Both are lambdas with the same parameters, or none is a lambda. -/
theorem asLambda? (h : Respelled k b e e') :
    (e.asLambda? = none ∧ e'.asLambda? = none) ∨
      ∃ params body body', e.asLambda? = some (params, body) ∧
        e'.asLambda? = some (params, body') ∧ Respelled k k body body' := by
  induction e' using Expr.asLambda?.induct generalizing e with
  | case1 params body =>
    cases h with
    | lambda _ h => exact .inr ⟨_, _, _, rfl, rfl, h⟩
  | case2 inner ih => cases h with | quote h => exact (ih h :)
  | case3 e' hl hq =>
    cases h
    case lambda => exact absurd rfl (hl _ _)
    case quote => exact absurd rfl (hq _)
    all_goals exact .inl ⟨rfl, rfl⟩

mutual
theorem known?_eq : ∀ {b : Bool} {e e' : Expr}, Respelled k b e e' → e.known? = e'.known?
  | _, _, _, .literal _ | _, _, _, .param _ | _, _, _, .inject _ | _, _, _, .member _ _
  | _, _, _, .call _ _ _ | _, _, _, .onClass _ _ _ _ | _, _, _, .staticCall _ _
  | _, _, _, .index _ _ | _, _, _, .not _ | _, _, _, .binary _ _ _ | _, _, _, .conditional _ _ _
  | _, _, _, .lambda _ _ | _, _, _, .typeTest _ _ _ => rfl
  | _, _, _, .quote h => by simp only [known?, known?_eq h]
  | _, _, _, .convert _ h => by simp only [known?, known?_eq h]
  | _, _, _, .negate h => by simp only [known?, known?_eq h]
  | _, _, _, .object none _ => rfl
  | _, _, _, .object (some _) h => by simp only [known?, knownMembers?_eq h]
  | _, _, _, .copy _ hs _ => by simp only [known?, known?_eq hs]
  | _, _, _, .list _ hi => by simp only [known?, knownItems?_eq hi]
theorem knownItems?_eq : ∀ {b : Bool} {es es' : List Expr}, RespelledAll k b es es' →
    knownItems? es = knownItems? es'
  | _, _, _, .nil => rfl
  | _, _, _, .cons h hr => by simp only [knownItems?, known?_eq h, knownItems?_eq hr]
theorem knownMembers?_eq : ∀ {b : Bool} {ms ms' : List (String × Expr)},
    RespelledMembers k b ms ms' → knownMembers? ms = knownMembers? ms'
  | _, _, _, .nil => rfl
  | _, _, _, .cons _ h hr => by simp only [knownMembers?, known?_eq h, knownMembers?_eq hr]
end

/-- Both are lambdas with the same parameter, or none is. -/
theorem asUnaryLambda? (h : Respelled k b e e') :
    (e.asUnaryLambda? = none ∧ e'.asUnaryLambda? = none) ∨
      ∃ p body body', e.asUnaryLambda? = some (p, body) ∧
        e'.asUnaryLambda? = some (p, body') ∧ Respelled k k body body' := by
  rcases h.asLambda? with ⟨hn, hn'⟩ | ⟨params, body, body', hl, hl', hb⟩
  · exact .inl ⟨by rw [Expr.asUnaryLambda?, hn], by rw [Expr.asUnaryLambda?, hn']⟩
  · unfold Expr.asUnaryLambda?
    rw [hl, hl']
    rcases params with _ | ⟨p, _ | ⟨q, rest⟩⟩
    · exact .inl ⟨rfl, rfl⟩
    · exact .inr ⟨p, body, body', rfl, rfl, hb⟩
    · exact .inl ⟨rfl, rfl⟩

theorem asLiteral?_eq (h : Respelled k b e e') : e.asLiteral? = e'.asLiteral? := by
  have hs := h.strip
  unfold Expr.asLiteral?
  generalize e.strip = x at hs
  generalize e'.strip = x' at hs
  cases hs <;> rfl

theorem isParam_eq (h : Respelled k b e e') (name : String) : e.isParam name = e'.isParam name := by
  have hs := h.strip
  unfold Expr.isParam
  generalize e.strip = x at hs
  generalize e'.strip = x' at hs
  cases hs <;> rfl

theorem isTest_eq (h : Respelled k b e e') : e.isTest = e'.isTest := by
  have hs := h.strip
  unfold Expr.isTest
  generalize e.strip = x at hs
  generalize e'.strip = x' at hs
  cases hs <;> rfl

theorem chainRoot?_eq : ∀ {b : Bool} {e e' : Expr}, Respelled k b e e' →
    e.chainRoot? = e'.chainRoot?
  | _, _, _, .param _ | _, _, _, .literal _ | _, _, _, .inject _ | _, _, _, .call _ _ _
  | _, _, _, .onClass _ _ _ _ | _, _, _, .staticCall _ _ | _, _, _, .not _ | _, _, _, .negate _
  | _, _, _, .binary _ _ _ | _, _, _, .conditional _ _ _ | _, _, _, .object _ _
  | _, _, _, .copy _ _ _ | _, _, _, .list _ _ | _, _, _, .lambda _ _
  | _, _, _, .typeTest _ _ _ => rfl
  | _, _, _, .member _ h => by simp only [chainRoot?, chainRoot?_eq h]
  | _, _, _, .index h _ => by simp only [chainRoot?, chainRoot?_eq h]
  | _, _, _, .convert _ h => by simp only [chainRoot?, chainRoot?_eq h]
  | _, _, _, .quote h => by simp only [chainRoot?, chainRoot?_eq h]

/-! ## Types -/

theorem selectorType?_eq {args args' : List Expr} (h : RespelledAll k b args args')
    (types : List ValueType) (i : Nat) :
    Typing.selectorType? args types i = Typing.selectorType? args' types i := by
  have hlambda :
      (args[i]?.bind Expr.asLambda?).isSome = (args'[i]?.bind Expr.asLambda?).isSome := by
    induction i generalizing args args' with
    | zero =>
      cases h with
      | nil => rfl
      | cons h _ =>
        rcases h.asLambda? with ⟨hn, hn'⟩ | ⟨params, body, body', hl, hl', -⟩
        · simp [hn, hn']
        · simp [hl, hl']
    | succ i ih =>
      cases h with
      | nil => rfl
      | cons _ hr => simpa using ih hr
  unfold Typing.selectorType?
  rw [hlambda]

theorem typeArgument?_eq {args args' : List Expr} (h : RespelledAll k b args args') :
    typeArgument? args = typeArgument? args' := by
  cases h with
  | nil => rfl
  | cons h _ => simp [typeArgument?, h.asLiteral?_eq]

theorem callType_eq {args args' : List Expr} (h : RespelledAll k b args args') (source : ValueType)
    (method : String) (types : List ValueType) :
    Typing.callType source method args types = Typing.callType source method args' types := by
  unfold Typing.callType
  simp only [selectorType?_eq h, typeArgument?_eq h]

mutual
theorem typeOf_eq (s : Schema) : ∀ {b : Bool} {e e' : Expr}, Respelled k b e e' →
    s.typeOf e = s.typeOf e'
  | _, _, _, .literal _ | _, _, _, .param _ | _, _, _, .inject _ | _, _, _, .convert _ _
  | _, _, _, .typeTest _ _ _ => rfl
  | _, _, _, .quote h => by simp only [Schema.typeOf, typeOf_eq s h]
  | _, _, _, .lambda _ h => by simp only [Schema.typeOf, typeOf_eq s h]
  | _, _, _, .member _ h => by simp only [Schema.typeOf, typeOf_eq s h]
  | _, _, _, .index h _ => by simp only [Schema.typeOf, typeOf_eq s h]
  | _, _, _, .not h => by simp only [Schema.typeOf, typeOf_eq s h]
  | _, _, _, .negate h => by simp only [Schema.typeOf, typeOf_eq s h]
  | _, _, _, .binary _ hl hr => by simp only [Schema.typeOf, typeOf_eq s hl, typeOf_eq s hr]
  | _, _, _, .conditional _ hx _ => by simp only [Schema.typeOf, typeOf_eq s hx]
  | _, _, _, .object none _ => rfl
  | _, _, _, .object (some _) _ => rfl
  | _, _, _, .copy _ hs _ => by simp only [Schema.typeOf, typeOf_eq s hs]
  | _, _, _, .list _ .nil => rfl
  | _, _, _, .list _ (.cons h _) => by simp only [Schema.typeOf, typeOf_eq s h]
  | _, _, _, .call ht ha _ => by
    simp only [Schema.typeOf, typeOf_eq s ht, typesOf_eq s ha, callType_eq ha]
  | _, _, _, .onClass ho ht ha _ => by
    simp only [Schema.typeOf, ho, if_true, typeOf_eq s ht, typesOf_eq s ha, callType_eq ha]
  | _, _, _, .staticCall .nil _ => rfl
  | _, _, _, .staticCall (.cons h hr) _ => by
    simp only [Schema.typeOf, typeOf_eq s h, typesOf_eq s hr, callType_eq hr]
theorem typesOf_eq (s : Schema) : ∀ {b : Bool} {es es' : List Expr}, RespelledAll k b es es' →
    s.typesOf es = s.typesOf es'
  | _, _, _, .nil => rfl
  | _, _, _, .cons h hr => by simp only [Schema.typesOf, typeOf_eq s h, typesOf_eq s hr]
end

/-! ## Scopes -/

/-- Both computations succeed, or both fail. -/
theorem checkChain (h : Respelled k b e e') (s : Scope) :
    Follows (fun _ _ => True) (s.checkChain e) (s.checkChain e') := by
  unfold Scope.checkChain
  rw [h.chainRoot?_eq]
  split
  · split
    · exact .error
    · exact .ok trivial
  · exact .ok trivial

mutual
theorem check : ∀ {b : Bool} {e e' : Expr}, Respelled k b e e' → ∀ s : Scope,
    Follows (fun _ _ => True) (s.check e) (s.check e')
  | _, _, _, .literal _, _ | _, _, _, .inject _, _ => .ok trivial
  | _, _, _, .param p, s => checkChain (k := true) (b := false) (.param p) s
  | _, _, _, .not h, s | _, _, _, .negate h, s | _, _, _, .typeTest _ _ h, s => by
    simpa only [Scope.check] using check h s
  | _, _, _, .member name h, s => by
    simp only [Scope.check]
    exact (checkChain (.member name h) s).bind fun _ _ _ => check h s
  | _, _, _, .convert type h, s => by
    simp only [Scope.check]
    exact (checkChain (.convert type h) s).bind fun _ _ _ => check h s
  | _, _, _, .quote h, s => by
    simp only [Scope.check]
    exact (checkChain (.quote h) s).bind fun _ _ _ => check h s
  | _, _, _, .index ht hi, s => by
    simp only [Scope.check]
    exact (checkChain (.index ht hi) s).bind fun _ _ _ =>
      (check ht s).bind fun _ _ _ => check hi s
  | _, _, _, .call ht ha _, s => by
    simp only [Scope.check, isKnown, ht.known?_eq]
    exact (check ht s).bind fun _ _ _ => checkArgs ha s _
  | _, _, _, .onClass ho ht ha _, s => by
    simp only [Scope.check, ho, if_true, isKnown, ht.known?_eq]
    exact (check ht s).bind fun _ _ _ => checkArgs ha s _
  | _, _, _, .staticCall .nil _, _ => .ok trivial
  | _, _, _, .staticCall (.cons h hr) _, s => by
    simp only [Scope.check, isKnown, h.known?_eq]
    refine (check h s).bind fun _ _ _ => ?_
    split
    · exact checkArgs hr s _
    · exact checkAll hr s
  | _, _, _, .binary _ hl hr, s => by
    simp only [Scope.check]
    exact (check hl s).bind fun _ _ _ => check hr s
  | _, _, _, .conditional ht hx hy, s => by
    simp only [Scope.check]
    exact (check ht s).bind fun _ _ _ => (check hx s).bind fun _ _ _ => check hy s
  | _, _, _, .object _ hm, s => by
    simpa only [Scope.check] using checkMembers hm s
  | _, _, _, .copy _ hs hi, s => by
    simp only [Scope.check]
    exact (check hs s).bind fun _ _ _ => checkAll hi s
  | _, _, _, .list _ hi, s => by simpa only [Scope.check] using checkAll hi s
  | _, _, _, .lambda params h, s => by simpa only [Scope.check] using check h (s.enter params)
theorem checkArgs : ∀ {b : Bool} {es es' : List Expr}, RespelledAll k b es es' →
    ∀ (s : Scope) (known : Bool),
      Follows (fun _ _ => True) (s.checkArgs known es) (s.checkArgs known es')
  | _, _, _, .nil, _, _ => .ok trivial
  | _, _, _, .cons h hr, s, known => by
    rcases h.asLambda? with ⟨hn, hn'⟩ | ⟨params, body, body', hl, hl', -⟩
    · simp only [Scope.checkArgs, hn, hn']
      exact (check h s).bind fun _ _ _ => checkArgs hr s known
    · simp only [Scope.checkArgs, hl, hl']
      exact (checkBody h _).bind fun _ _ _ => checkArgs hr s known
theorem checkBody : ∀ {b : Bool} {e e' : Expr}, Respelled k b e e' → ∀ s : Scope,
    Follows (fun _ _ => True) (s.checkBody e) (s.checkBody e')
  | _, _, _, .lambda _ h, s => by simpa only [Scope.checkBody] using check h s
  | _, _, _, .quote h, s => by simpa only [Scope.checkBody] using checkBody h s
  | _, _, _, .literal _, _ | _, _, _, .inject _, _ | _, _, _, .param _, _ | _, _, _, .not _, _
  | _, _, _, .negate _, _ | _, _, _, .typeTest _ _ _, _ | _, _, _, .member _ _, _
  | _, _, _, .convert _ _, _ | _, _, _, .index _ _, _ | _, _, _, .call _ _ _, _
  | _, _, _, .onClass _ _ _ _, _ | _, _, _, .staticCall _ _, _ | _, _, _, .binary _ _ _, _
  | _, _, _, .conditional _ _ _, _ | _, _, _, .object _ _, _ | _, _, _, .copy _ _ _, _
  | _, _, _, .list _ _, _ => .ok trivial
theorem checkAll : ∀ {b : Bool} {es es' : List Expr}, RespelledAll k b es es' → ∀ s : Scope,
    Follows (fun _ _ => True) (s.checkAll es) (s.checkAll es')
  | _, _, _, .nil, _ => .ok trivial
  | _, _, _, .cons h hr, s => by
    simp only [Scope.checkAll]
    exact (check h s).bind fun _ _ _ => checkAll hr s
theorem checkMembers : ∀ {b : Bool} {ms ms' : List (String × Expr)}, RespelledMembers k b ms ms' →
    ∀ s : Scope, Follows (fun _ _ => True) (s.checkMembers ms) (s.checkMembers ms')
  | _, _, _, .nil, _ => .ok trivial
  | _, _, _, .cons _ h hr, s => by
    simp only [Scope.checkMembers]
    exact (check h s).bind fun _ _ _ => checkMembers hr s
end

theorem check_iff (h : Respelled k b e e') (s : Scope) :
    s.check e = .ok () ↔ s.check e' = .ok () := by
  have hcheck := h.check s
  generalize s.check e = x at hcheck
  generalize s.check e' = x' at hcheck
  cases hcheck <;> simp

/-! ## Stored fields -/

theorem eq_of_asLiteral? (h : Respelled k b e e') {l : Literal} (hl : e'.asLiteral? = some l) :
    e = e' := by
  unfold Expr.asLiteral? at hl
  induction e' using Expr.strip.induct generalizing e with
  | case1 inner ih => cases h with | quote h => rw [ih h hl]
  | case2 operand type ih => cases h with | convert _ h => rw [ih h hl]
  | case3 e' hq hc =>
    rw [Expr.strip.eq_3 e' hq hc] at hl
    split at hl
    · cases h
      rfl
    · cases hl

/-- A call is followed through its receiver, and through its argument or a number that it has. -/
theorem eq_of_call {s : Schema} {t t' arg arg' : Expr} {method : String} {f : FieldPath}
    (ha : Respelled k b arg arg') (ht : ∀ f, s.fieldPath? t' = .ok (some f) → t = t')
    (hb : ∀ f, s.bodyPath? arg' = .ok (some f) → arg = arg')
    (hf : s.fieldPath? (.call t' method [arg']) = .ok (some f)) :
    Expr.call t method [arg] = .call t' method [arg'] := by
  by_cases he : method = "ElementAt"
  · subst he
    simp only [Schema.fieldPath?] at hf
    obtain ⟨g, hg, hf⟩ := exists_of_bind_eq_some hf rfl
    obtain ⟨l, hl, -⟩ := Option.bind_eq_some_iff.1 (Except.ok.inj hf)
    rw [ht g hg, ha.eq_of_asLiteral? hl]
  by_cases ho : method = "OfType"
  · subst ho
    simp only [Schema.fieldPath?] at hf
    obtain ⟨g, hg, hf⟩ := exists_of_bind_eq_some hf rfl
    obtain ⟨name, hname, -⟩ := Option.map_eq_some_iff.1 (Except.ok.inj hf)
    obtain ⟨l, hl, -⟩ := Option.bind_eq_some_iff.1 hname
    rw [ht g hg, ha.eq_of_asLiteral? hl]
  by_cases hs : method = "Select"
  · subst hs
    simp only [Schema.fieldPath?] at hf
    split at hf
    · cases hf
    · obtain ⟨g, hg, hf⟩ := exists_of_bind_eq_some hf rfl
      dsimp only at hf
      split at hf
      · obtain ⟨inner, hinner, -⟩ := exists_of_bind_eq_some hf rfl
        rw [ht g hg, hb inner hinner]
      · cases hf
  -- No other call is followed.
  simp [Schema.fieldPath?, pure, Except.pure] at hf

mutual
/-- A call on a class is not followed, so that nothing is respelled in what reads a stored field. -/
theorem eq_of_fieldPath? (s : Schema) : ∀ {b : Bool} {e e' : Expr}, Respelled k b e e' →
    ∀ f, s.fieldPath? e' = .ok (some f) → e = e'
  | _, _, _, .param _ => fun _ _ => rfl
  | _, _, _, .quote h | _, _, _, .convert _ h => by
    intro f hf
    simp only [Schema.fieldPath?] at hf
    rw [eq_of_fieldPath? s h f hf]
  | _, _, _, .member name h => by
    intro f hf
    simp only [Schema.fieldPath?] at hf
    obtain ⟨g, hg, -⟩ := exists_of_bind_eq_some hf rfl
    rw [eq_of_fieldPath? s h g hg]
  | _, _, _, .index h hi => by
    intro f hf
    simp only [Schema.fieldPath?] at hf
    obtain ⟨g, hg, hf⟩ := exists_of_bind_eq_some hf rfl
    obtain ⟨l, hl, -⟩ := Option.bind_eq_some_iff.1 (Except.ok.inj hf)
    rw [eq_of_fieldPath? s h g hg, hi.eq_of_asLiteral? hl]
  | _, _, _, .call ht ha _ => by
    intro f hf
    cases ha with
    | nil => simp [Schema.fieldPath?] at hf
    | cons ha hr =>
      cases hr with
      | nil => exact eq_of_call ha (eq_of_fieldPath? s ht) (eq_of_bodyPath? s ha) hf
      | cons _ _ => simp [Schema.fieldPath?] at hf
  | _, _, _, .literal _ | _, _, _, .inject _ | _, _, _, .not _ | _, _, _, .negate _
  | _, _, _, .typeTest _ _ _ | _, _, _, .onClass _ _ _ _ | _, _, _, .staticCall _ _
  | _, _, _, .binary _ _ _ | _, _, _, .conditional _ _ _ | _, _, _, .object _ _
  | _, _, _, .copy _ _ _ | _, _, _, .list _ _ | _, _, _, .lambda _ _ => by
    intro f hf
    simp only [Schema.fieldPath?] at hf
    cases hf
theorem eq_of_bodyPath? (s : Schema) : ∀ {b : Bool} {e e' : Expr}, Respelled k b e e' →
    ∀ f, s.bodyPath? e' = .ok (some f) → e = e'
  | _, _, _, .lambda _ h => by
    intro f hf
    simp only [Schema.bodyPath?] at hf
    rw [eq_of_fieldPath? s h f hf]
  | _, _, _, .quote h => by
    intro f hf
    simp only [Schema.bodyPath?] at hf
    rw [eq_of_bodyPath? s h f hf]
  | _, _, _, .param _ | _, _, _, .convert _ _ | _, _, _, .member _ _ | _, _, _, .index _ _
  | _, _, _, .call _ _ _ | _, _, _, .literal _ | _, _, _, .inject _ | _, _, _, .not _
  | _, _, _, .negate _ | _, _, _, .typeTest _ _ _ | _, _, _, .onClass _ _ _ _
  | _, _, _, .staticCall _ _ | _, _, _, .binary _ _ _ | _, _, _, .conditional _ _ _
  | _, _, _, .object _ _ | _, _, _, .copy _ _ _ | _, _, _, .list _ _ => by
    intro f hf
    simp only [Schema.bodyPath?] at hf
    cases hf
end

/-! ## Fields to return -/

theorem eq_of_copiedField {s : Schema} (h : Respelled k b e e') {param : String}
    {paths read : List (List String)} {shape : Shape}
    (hc : s.copiedField param paths e' = .ok (some shape, read)) : e = e' := by
  unfold Schema.copiedField at hc
  obtain ⟨r, hr, hc⟩ := bind_eq_ok.1 hc
  cases r with
  | none => cases hc
  | some f => exact h.eq_of_fieldPath? s f hr

mutual
/-- What is copied reads stored fields only. -/
theorem eq_of_copied (s : Schema) (param : String) : ∀ {b : Bool} {e e' : Expr},
    Respelled k b e e' →
      ∀ paths shape read, s.copied param paths e' = .ok (some shape, read) → e = e'
  | _, _, _, .quote h | _, _, _, .convert _ h => by
    intro paths shape read hc
    simp only [Schema.copied] at hc
    rw [eq_of_copied s param h paths shape read hc]
  | _, _, _, .object _ hm => by
    intro paths shape read hc
    simp only [Schema.copied] at hc
    obtain ⟨r, hr, hc⟩ := bind_eq_ok.1 hc
    obtain ⟨shapes, read'⟩ := r
    cases shapes with
    | none => cases hc
    | some shapes => rw [eq_of_copiedMembers s param hm paths shapes read' hr]
  | _, _, _, .param p => fun _ _ _ _ => rfl
  | _, _, _, .member name h => by
    intro paths shape read hc
    simp only [Schema.copied] at hc
    exact eq_of_copiedField (.member name h) hc
  | _, _, _, .index ht hi => by
    intro paths shape read hc
    simp only [Schema.copied] at hc
    exact eq_of_copiedField (.index ht hi) hc
  | _, _, _, .call ht ha hcollapse => by
    intro paths shape read hc
    simp only [Schema.copied] at hc
    exact eq_of_copiedField (.call ht ha hcollapse) hc
  | _, _, _, .onClass _ _ _ _
  | _, _, _, .literal _ | _, _, _, .inject _ | _, _, _, .not _ | _, _, _, .negate _
  | _, _, _, .typeTest _ _ _ | _, _, _, .staticCall _ _ | _, _, _, .binary _ _ _
  | _, _, _, .conditional _ _ _ | _, _, _, .copy _ _ _ | _, _, _, .list _ _
  | _, _, _, .lambda _ _ => by
    intro paths shape read hc
    simp only [Schema.copied, Schema.copiedField, Schema.fieldPath?] at hc
    cases hc
theorem eq_of_copiedMembers (s : Schema) (param : String) :
    ∀ {b : Bool} {ms ms' : List (String × Expr)}, RespelledMembers k b ms ms' →
      ∀ paths shapes read, s.copiedMembers param paths ms' = .ok (some shapes, read) → ms = ms'
  | _, _, _, .nil => fun _ _ _ _ => rfl
  | _, _, _, .cons name h hr => by
    intro paths shapes read hc
    simp only [Schema.copiedMembers] at hc
    obtain ⟨r, hr', hc⟩ := bind_eq_ok.1 hc
    obtain ⟨shape, read'⟩ := r
    cases shape with
    | none => cases hc
    | some shape =>
      obtain ⟨r, hrest, hc⟩ := bind_eq_ok.1 hc
      obtain ⟨others, read''⟩ := r
      cases others with
      | none => cases hc
      | some others =>
        rw [eq_of_copied s param h paths shape read' hr',
          eq_of_copiedMembers s param hr read' others read'' hrest]
end

end Respelled
end Expr

/-- A selector that is respelled anywhere needs more than stored fields. -/
theorem Mapping.eq_of_inclusion? (m : Mapping) {k b : Bool} {selector e e' : Expr} {p : Param}
    {i : Inclusion} (hs : selector.asUnaryLambda? = some (p, e')) (h : Expr.Respelled k b e e')
    (hi : m.inclusion? selector = .ok (some i)) : e = e' := by
  unfold inclusion? at hi
  simp only [hs] at hi
  obtain ⟨⟨⟩, -, hi⟩ := bind_eq_ok.1 hi
  obtain ⟨r, hr, hi⟩ := bind_eq_ok.1 hi
  obtain ⟨shape, paths⟩ := r
  cases shape with
  | none => cases hi
  | some shape => exact h.eq_of_copied m.schema p.name [] shape paths hr

end DocQuery
