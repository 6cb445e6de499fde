/-
What is known of the outcome of steps that may fail: a fact about the result if
there is one, and a fact about the cause if there is none (`Post`). A sequence of
steps is gone through step by step (`Post.bind`). Two sequences of steps are
compared step by step (`Follows`).
-/
import DocQuery.Error

namespace DocQuery

variable {α β : Type} {P : α → Prop} {Q : β → Prop} {E : Error → Prop}

/-- `P` of the result, or `E` of the cause why there is none. -/
def Post (P : α → Prop) (E : Error → Prop) : Result α → Prop
  | .ok a => P a
  | .error e => E e

@[simp] theorem post_ok {a : α} : Post P E (.ok a) ↔ P a := Iff.rfl

@[simp] theorem post_error {e : Error} : Post P E (.error e) ↔ E e := Iff.rfl

@[simp] theorem post_pure {a : α} : Post P E (pure a) ↔ P a := Iff.rfl

/-- The next step may use what is known of the result of the one before. -/
theorem Post.bind {x : Result α} {f : α → Result β} (hx : Post P E x)
    (hf : ∀ a, P a → Post Q E (f a)) : Post Q E (x >>= f) := by
  cases x with
  | ok a => exact hf a hx
  | error e => exact hx

theorem Post.map {x : Result α} {f : α → β} (hx : Post P E x) (hf : ∀ a, P a → Q (f a)) :
    Post Q E (f <$> x) := by
  cases x with
  | ok a => exact hf a hx
  | error e => exact hx

theorem Post.mono {P' : α → Prop} {E' : Error → Prop} {x : Result α} (hx : Post P E x)
    (h : ∀ a, P a → P' a) (he : ∀ e, E e → E' e) : Post P' E' x := by
  cases x with
  | ok a => exact h a hx
  | error e => exact he e hx

theorem Post.imp {P' : α → Prop} {x : Result α} (hx : Post P E x) (h : ∀ a, P a → P' a) :
    Post P' E x :=
  hx.mono h fun _ he => he

theorem Post.and {P' : α → Prop} {x : Result α} (hx : Post P E x) (hx' : Post P' E x) :
    Post (fun a => P a ∧ P' a) E x := by
  cases x with
  | ok a => exact ⟨hx, hx'⟩
  | error e => exact hx

/-- What each step of a list of steps gives, all of them give. -/
theorem Post.mapM {xs : List α} {f : α → Result β} (h : ∀ a ∈ xs, Post Q E (f a)) :
    Post (fun ys => ∀ y ∈ ys, Q y) E (xs.mapM f) := by
  induction xs with
  | nil => simp [List.mapM_nil]
  | cons a rest ih =>
    rw [List.mapM_cons]
    refine Post.bind (h a (by simp)) fun y hy => ?_
    refine Post.bind (ih fun b hb => h b (by simp [hb])) fun ys hys => ?_
    simpa using ⟨hy, hys⟩

/-- Nothing is known of the outcome. -/
theorem Post.of_total (x : Result α) : Post (fun _ => True) (fun _ => True) x := by
  cases x <;> trivial

/-- A result is what the computation gives. -/
theorem Post.self (x : Result α) : Post (fun a => x = .ok a) (fun _ => True) x := by
  cases x <;> trivial

theorem Post.of_ok {x : Result α} {a : α} (hx : Post P E x) (h : x = .ok a) : P a := by
  subst h
  exact hx

theorem Post.of_error {x : Result α} {e : Error} (hx : Post P E x) (h : x = .error e) : E e := by
  subst h
  exact hx

theorem bind_eq_ok {x : Result α} {f : α → Result β} {b : β} :
    x >>= f = .ok b ↔ ∃ a, x = .ok a ∧ f a = .ok b := by
  cases x with
  | ok a => exact ⟨fun h => ⟨a, rfl, h⟩, fun ⟨_, ha, h⟩ => by cases ha; exact h⟩
  | error e => exact ⟨fun h => (nomatch h), fun ⟨_, ha, _⟩ => (nomatch ha)⟩

theorem map_eq_ok {x : Result α} {f : α → β} {b : β} :
    f <$> x = .ok b ↔ ∃ a, x = .ok a ∧ f a = b := by
  cases x with
  | ok a => exact ⟨fun h => ⟨a, rfl, Except.ok.inj h⟩, fun ⟨_, ha, h⟩ => by cases ha; exact h ▸ rfl⟩
  | error e => exact ⟨fun h => (nomatch h), fun ⟨_, ha, _⟩ => (nomatch ha)⟩

variable {γ δ : Type} {R : α → β → Prop} {S : γ → δ → Prop}

/-- Two computations that both fail, or have results that `R` relates. -/
inductive Follows (R : α → β → Prop) : Result α → Result β → Prop
  | ok {a : α} {b : β} : R a b → Follows R (.ok a) (.ok b)
  | error {e e' : Error} : Follows R (.error e) (.error e')

theorem Follows.bind {x : Result α} {y : Result β} {f : α → Result γ} {g : β → Result δ}
    (hxy : Follows R x y) (hfg : ∀ a b, R a b → Follows S (f a) (g b)) :
    Follows S (x >>= f) (y >>= g) := by
  cases hxy with
  | ok hab => exact hfg _ _ hab
  | error => exact .error

theorem Follows.map {x : Result α} {y : Result β} {f : α → γ} {g : β → δ} (hxy : Follows R x y)
    (hfg : ∀ a b, R a b → S (f a) (g b)) : Follows S (f <$> x) (g <$> y) := by
  cases hxy with
  | ok hab => exact .ok (hfg _ _ hab)
  | error => exact .error

theorem Follows.exists_left {x : Result α} {b : β} (h : Follows R x (.ok b)) :
    ∃ a, x = .ok a ∧ R a b := by
  cases h with
  | ok hab => exact ⟨_, rfl, hab⟩

/-- A step that both take gives both the same result. -/
theorem Post.follows {x : Result α} (hx : Post P E x) : Follows (fun a b => b = a ∧ P a) x x := by
  cases x with
  | ok a => exact .ok ⟨rfl, hx⟩
  | error e => exact .error

end DocQuery
