import Mathlib.Data.List.Forall2
import PlotGrammar.Failure

/-! # Results of computations that may fail

  What compiling does is a chain of steps of which any may fail. This module
  holds the two ways in which such chains are opened in proofs:

  - *inversion*: a chain that succeeds has succeeded in every step
    (`bind_eq_ok_iff`, `mapM_eq_ok_iff`), and one that fails has failed in some
    step (`bind_eq_error_iff`, `exists_of_mapM_eq_error`),
  - *simulation*: two chains whose steps agree also agree (`Agree.bind`), and so
    do runs over lists. Two results agree if both are the same failure, or if
    both are values that stand in a given relation.

  A chain that is aborted gives nothing to compare, so `AgreeIfGiven` only says
  that two results agree if neither is. What runs over lists need of either is
  the same (`IsSimulation`). Lists of different lengths can only agree
  in that they fail alike (`AgreeIfGiven.mapM_of_ne_nil`).
-/

namespace PlotGrammar

variable {ε α β γ δ σ τ : Type}

/-! ### Inversion -/

instance decidableEqError [DecidableEq ε] (x : Except ε α) (e : ε) : Decidable (x = .error e) :=
  match x with
  | .error e' => decidable_of_iff (e' = e) (by simp)
  | .ok _ => isFalse (by simp)

/-- What is found in a result has been computed. -/
theorem eq_ok_of_mem_toOption {x : Except ε α} {a : α} (h : a ∈ x.toOption) : x = .ok a := by
  cases x with
  | error e => cases h
  | ok a' => exact congrArg Except.ok (Option.some.inj h)

theorem eq_ok_of_mem_join {x : Except ε (Option α)} {a : α} (h : a ∈ x.toOption.join) :
    x = .ok (some a) :=
  eq_ok_of_mem_toOption (Option.join_eq_some_iff.1 h)

/-- A chain succeeds exactly if its first step does and then its second. -/
theorem bind_eq_ok_iff {x : Except ε α} {f : α → Except ε β} {b : β} :
    (x >>= f) = .ok b ↔ ∃ a, x = .ok a ∧ f a = .ok b := by
  cases x with
  | error e => simp [bind, Except.bind]
  | ok a => simp [bind, Except.bind]

/-- Mapping a list succeeds exactly if it does at every element. -/
theorem mapM_eq_ok_iff {f : α → Except ε β} {xs : List α} {ys : List β} :
    xs.mapM f = .ok ys ↔ List.Forall₂ (fun x y => f x = .ok y) xs ys := by
  induction xs generalizing ys with
  | nil =>
    rw [List.mapM_nil, List.forall₂_nil_left_iff]
    constructor
    · intro h
      cases h
      rfl
    · intro h
      rw [h]
      rfl
  | cons x xs ih =>
    rw [List.mapM_cons, bind_eq_ok_iff]
    constructor
    · intro ⟨y, hy, h⟩
      obtain ⟨rest, hrest, h⟩ := bind_eq_ok_iff.1 h
      cases h
      exact .cons hy (ih.1 hrest)
    · intro h
      cases h with
      | cons hy hrest => exact ⟨_, hy, bind_eq_ok_iff.2 ⟨_, ih.2 hrest, rfl⟩⟩

/-- Mapping a list succeeds if it does at every element. -/
theorem exists_mapM_eq_ok {f : α → Except ε β} {xs : List α} (h : ∀ x ∈ xs, ∃ y, f x = .ok y) :
    ∃ ys, xs.mapM f = .ok ys := by
  induction xs with
  | nil => exact ⟨[], rfl⟩
  | cons x xs ih =>
    obtain ⟨y, hy⟩ := h x List.mem_cons_self
    obtain ⟨ys, hys⟩ := ih fun z hz => h z (List.mem_cons_of_mem _ hz)
    rw [List.mapM_cons]
    exact ⟨y :: ys, bind_eq_ok_iff.2 ⟨y, hy, bind_eq_ok_iff.2 ⟨ys, hys, rfl⟩⟩⟩

/-- Mapping a list by functions that are equal on it. -/
theorem mapM_congr {f g : α → Except ε β} {xs : List α} (h : ∀ x ∈ xs, f x = g x) :
    xs.mapM f = xs.mapM g := by
  induction xs with
  | nil => rfl
  | cons x xs ih =>
    rw [List.mapM_cons, List.mapM_cons, h x List.mem_cons_self,
      ih fun y hy => h y (List.mem_cons_of_mem _ hy)]

/-- In two related lists every element of the second has a partner in the
    first. -/
theorem exists_of_forall₂_of_mem {R : α → β → Prop} {xs : List α} {ys : List β}
    (h : List.Forall₂ R xs ys) {y : β} (hy : y ∈ ys) : ∃ x ∈ xs, R x y := by
  induction h with
  | nil => cases hy
  | @cons x z xs ys hx _ ih =>
    rcases List.mem_cons.1 hy with rfl | hy
    · exact ⟨x, List.mem_cons_self, hx⟩
    · obtain ⟨w, hw, h⟩ := ih hy
      exact ⟨w, List.mem_cons_of_mem _ hw, h⟩

/-- In two related lists every element of the first has a partner at its
    position in the second. -/
theorem exists_getElem?_of_forall₂ {R : α → β → Prop} {xs : List α} {ys : List β}
    (h : List.Forall₂ R xs ys) {i : Nat} {x : α} (hx : xs[i]? = some x) :
    ∃ y, ys[i]? = some y ∧ R x y := by
  induction h generalizing i with
  | nil => cases hx
  | @cons z y xs ys hzy _ ih =>
    cases i with
    | zero =>
      rw [List.getElem?_cons_zero, Option.some.injEq] at hx
      rw [← hx]
      exact ⟨y, List.getElem?_cons_zero, hzy⟩
    | succ i =>
      rw [List.getElem?_cons_succ] at hx ⊢
      exact ih hx

/-- Every element of a mapped list comes from one of the list. -/
theorem exists_of_mem_mapM {f : α → Except ε β} {xs : List α} {ys : List β}
    (h : xs.mapM f = .ok ys) {y : β} (hy : y ∈ ys) : ∃ x ∈ xs, f x = .ok y :=
  exists_of_forall₂_of_mem (mapM_eq_ok_iff.1 h) hy

/-- Two related lists have the same images if related elements have. -/
theorem map_eq_map_of_forall₂ {R : α → β → Prop} {f : α → γ} {g : β → γ} {xs : List α}
    {ys : List β} (h : List.Forall₂ R xs ys) (hfg : ∀ x ∈ xs, ∀ y, R x y → f x = g y) :
    xs.map f = ys.map g := by
  induction h with
  | nil => rfl
  | cons hx _ ih =>
    rw [List.map_cons, List.map_cons, hfg _ List.mem_cons_self _ hx,
      ih fun x hmem => hfg x (List.mem_cons_of_mem _ hmem)]

/-- What related elements give holds the same elements if it does for each two
    of them. -/
theorem perm_flatMap_of_forall₂ {R : α → β → Prop} {f : α → List γ} {g : β → List γ} {xs : List α}
    {ys : List β} (h : List.Forall₂ R xs ys) (hfg : ∀ x ∈ xs, ∀ y, R x y → (g y).Perm (f x)) :
    (ys.flatMap g).Perm (xs.flatMap f) := by
  induction h with
  | nil => exact .refl _
  | cons hx _ ih =>
    have hfirst := hfg _ List.mem_cons_self _ hx
    have hrest := ih fun x hmem => hfg x (List.mem_cons_of_mem _ hmem)
    rw [List.flatMap_cons, List.flatMap_cons]
    exact hfirst.append hrest

/-- A list of images is a mapped list. -/
theorem eq_map_of_forall₂ {f : β → α} {xs : List α} {ys : List β}
    (h : List.Forall₂ (fun x y => x = f y) xs ys) : xs = ys.map f := by
  rw [← List.forall₂_eq_eq_eq, List.forall₂_map_right_iff]
  exact h

/-- What every step of a run keeps holds of where the run leads. -/
theorem holds_of_foldlM {P : σ → Prop} {f : σ → α → Except ε σ} {xs : List α}
    (hstep : ∀ s x s', x ∈ xs → P s → f s x = .ok s' → P s') {s s' : σ} (h : P s)
    (hrun : xs.foldlM f s = .ok s') : P s' := by
  induction xs generalizing s with
  | nil =>
    cases hrun
    exact h
  | cons x xs ih =>
    rw [List.foldlM_cons, bind_eq_ok_iff] at hrun
    obtain ⟨mid, hmid, hrun⟩ := hrun
    have hkept := hstep s x mid List.mem_cons_self h hmid
    exact ih (fun s y s' hy => hstep s y s' (List.mem_cons_of_mem _ hy)) hkept hrun

/-- A chain fails exactly if its first step does, or its second after it. -/
theorem bind_eq_error_iff {x : Except ε α} {f : α → Except ε β} {e : ε} :
    (x >>= f) = .error e ↔ x = .error e ∨ ∃ a, x = .ok a ∧ f a = .error e := by
  cases x with
  | error e' => simp [bind, Except.bind]
  | ok a => simp [bind, Except.bind]

/-- A chain whose last step only makes a value fails before it. -/
theorem of_bind_ok_eq_error {x : Except ε α} {f : α → β} {e : ε}
    (h : (x >>= fun a => .ok (f a)) = .error e) : x = .error e := by
  cases x with
  | error e' => exact congrArg Except.error (Except.error.inj h)
  | ok a => cases h

/-- If mapping a list fails, it does so at the first element at which the
    function does. -/
theorem exists_first_of_mapM_eq_error {f : α → Except ε β} {xs : List α} {e : ε}
    (h : xs.mapM f = .error e) :
    ∃ before x after, xs = before ++ x :: after ∧ f x = .error e ∧
      ∀ y ∈ before, ∃ b, f y = .ok b := by
  induction xs with
  | nil => cases h
  | cons x xs ih =>
    rw [List.mapM_cons, bind_eq_error_iff] at h
    rcases h with hx | ⟨b, hb, h⟩
    · exact ⟨[], x, xs, rfl, hx, by simp⟩
    · obtain ⟨before, z, after, hxs, hfail, hbefore⟩ := ih (of_bind_ok_eq_error h)
      rw [hxs]
      exact ⟨x :: before, z, after, rfl, hfail, List.forall_mem_cons.2 ⟨⟨b, hb⟩, hbefore⟩⟩

/-- If mapping a list fails, it does so at an element. -/
theorem exists_of_mapM_eq_error {f : α → Except ε β} {xs : List α} {e : ε}
    (h : xs.mapM f = .error e) : ∃ x ∈ xs, f x = .error e := by
  obtain ⟨before, x, after, hxs, hfail, -⟩ := exists_first_of_mapM_eq_error h
  exact ⟨x, by simp [hxs], hfail⟩

/-- In a list with elements one of them decides whether and how mapping it fails. -/
theorem exists_decisive (f : α → Except ε β) {xs : List α} (hne : xs ≠ []) :
    ∃ x ∈ xs, ∀ e, xs.mapM f = .error e ↔ f x = .error e := by
  cases hxs : xs.mapM f with
  | error e =>
    obtain ⟨x, hx, hfail⟩ := exists_of_mapM_eq_error hxs
    exact ⟨x, hx, fun e' => by rw [hfail, Except.error.injEq, Except.error.injEq]⟩
  | ok ys =>
    obtain ⟨x, hx⟩ := List.exists_mem_of_ne_nil xs hne
    obtain ⟨i, hi⟩ := List.getElem?_of_mem hx
    obtain ⟨y, -, hy⟩ := exists_getElem?_of_forall₂ (mapM_eq_ok_iff.1 hxs) hi
    exact ⟨x, hx, fun e => by rw [hy]; simp⟩

/-- If a run over a list fails, it does so in a step. -/
theorem exists_of_foldlM_eq_error {f : σ → α → Except ε σ} {xs : List α} {s : σ} {e : ε}
    (h : xs.foldlM f s = .error e) : ∃ x ∈ xs, ∃ s', f s' x = .error e := by
  induction xs generalizing s with
  | nil => cases h
  | cons x xs ih =>
    rw [List.foldlM_cons, bind_eq_error_iff] at h
    rcases h with hx | ⟨s', -, hrest⟩
    · exact ⟨x, List.mem_cons_self, s, hx⟩
    · obtain ⟨z, hz, s'', hfail⟩ := ih hrest
      exact ⟨z, List.mem_cons_of_mem _ hz, s'', hfail⟩

/-- Moving a failure to a node does not touch a success. -/
theorem locatedAt_eq_ok_iff {p : NodePath} {x : Except Failure α} {a : α} :
    locatedAt p x = .ok a ↔ x = .ok a := by
  cases x with
  | error e => simp [locatedAt]
  | ok b => simp [locatedAt]

/-- A result that fails at a node failed before it was moved there. -/
theorem locatedAt_eq_error_iff {p : NodePath} {x : Except Failure α} {e : Failure} :
    locatedAt p x = .error e ↔ ∃ raised, x = .error raised ∧ e = raised.relocate p := by
  cases x with
  | error raised => simp [locatedAt, eq_comm]
  | ok a => simp [locatedAt]

/-! ### Simulation -/

/-- A way in which two results may match: values that are related do, and
    chains do if their steps do. -/
structure IsSimulation
    (Sim : (α β : Type) → (α → β → Prop) → Except ε α → Except ε β → Prop) : Prop where
  ok : ∀ {α β : Type} {R : α → β → Prop} {a : α} {b : β}, R a b → Sim α β R (.ok a) (.ok b)
  bind : ∀ {α β γ δ : Type} {R : α → β → Prop} {S : γ → δ → Prop} {x : Except ε α}
    {y : Except ε β} {f : α → Except ε γ} {g : β → Except ε δ}, Sim α β R x y →
      (∀ a b, R a b → Sim γ δ S (f a) (g b)) → Sim γ δ S (x >>= f) (y >>= g)

namespace IsSimulation

variable {Sim : (α β : Type) → (α → β → Prop) → Except ε α → Except ε β → Prop}

/-- Mapping a list in two ways matches if it does at every element. -/
theorem mapM (hsim : IsSimulation Sim) {S : γ → δ → Prop} {f : α → Except ε γ}
    {g : α → Except ε δ} {xs : List α} (h : ∀ x ∈ xs, Sim γ δ S (f x) (g x)) :
    Sim (List γ) (List δ) (List.Forall₂ S) (xs.mapM f) (xs.mapM g) := by
  induction xs with
  | nil => exact hsim.ok .nil
  | cons x xs ih =>
    rw [List.mapM_cons, List.mapM_cons]
    refine hsim.bind (h x List.mem_cons_self) fun y z hyz => ?_
    refine hsim.bind (ih fun w hw => h w (List.mem_cons_of_mem _ hw)) fun ys zs hyszs => ?_
    exact hsim.ok (.cons hyz hyszs)

/-- Two runs over one list match if one step keeps the states related. -/
theorem foldlM (hsim : IsSimulation Sim) {Q : σ → τ → Prop} {f : σ → α → Except ε σ}
    {g : τ → α → Except ε τ} {xs : List α}
    (hstep : ∀ s t x, x ∈ xs → Q s t → Sim σ τ Q (f s x) (g t x)) {s : σ} {t : τ} (h : Q s t) :
    Sim σ τ Q (xs.foldlM f s) (xs.foldlM g t) := by
  induction xs generalizing s t with
  | nil => exact hsim.ok h
  | cons x xs ih =>
    rw [List.foldlM_cons, List.foldlM_cons]
    refine hsim.bind (hstep s t x List.mem_cons_self h) fun s' t' h' => ?_
    exact ih (fun s t y hy => hstep s t y (List.mem_cons_of_mem _ hy)) h'

end IsSimulation

/-- Both results are the same failure, or both are values related by `R`. -/
inductive Agree (R : α → β → Prop) : Except ε α → Except ε β → Prop where
  | error (e : ε) : Agree R (.error e) (.error e)
  | ok {a : α} {b : β} (h : R a b) : Agree R (.ok a) (.ok b)

namespace Agree

variable {R : α → β → Prop} {S : γ → δ → Prop}

/-- Chains agree if their first steps do and their second steps do on
    related values. -/
theorem bind {x : Except ε α} {y : Except ε β} {f : α → Except ε γ} {g : β → Except ε δ}
    (h : Agree R x y) (hS : ∀ a b, R a b → Agree S (f a) (g b)) :
    Agree S (x >>= f) (y >>= g) := by
  cases h with
  | error e => exact .error e
  | ok h => exact hS _ _ h

/-- Chains with the same first step agree if their second steps do on its
    value. -/
theorem bind_same {x : Except ε α} {f : α → Except ε γ} {g : α → Except ε δ}
    (hS : ∀ a, x = .ok a → Agree S (f a) (g a)) : Agree S (x >>= f) (x >>= g) := by
  cases x with
  | error e => exact .error e
  | ok a => exact hS a rfl

/-- Moving the failures of two results to one node keeps their agreement. -/
theorem locatedAt {x : Except Failure α} {y : Except Failure β} (h : Agree R x y) (p : NodePath) :
    Agree R (PlotGrammar.locatedAt p x) (PlotGrammar.locatedAt p y) := by
  cases h with
  | error e => exact .error _
  | ok h => exact .ok h

/-- Results that agree fail alike. -/
theorem error_iff {x : Except ε α} {y : Except ε β} (h : Agree R x y) (e : ε) :
    x = .error e ↔ y = .error e := by
  cases h with
  | error e' => simp
  | ok _ => simp

/-- Results that fail alike agree, as far as failures go. -/
theorem of_error_iff {x : Except ε α} {y : Except ε β} (h : ∀ e, x = .error e ↔ y = .error e) :
    Agree (fun _ _ => True) x y := by
  cases x with
  | error e =>
    rw [(h e).1 rfl]
    exact .error e
  | ok a =>
    cases y with
    | error e => cases (h e).2 rfl
    | ok b => exact .ok trivial

/-- Values that agree do so along with where they come from. -/
theorem with_ok {x : Except ε α} {y : Except ε β} (h : Agree R x y) :
    Agree (fun a b => R a b ∧ x = .ok a ∧ y = .ok b) x y := by
  cases h with
  | error e => exact .error e
  | ok h => exact .ok ⟨h, rfl, rfl⟩

theorem isSimulation : @IsSimulation ε fun _ _ R => Agree R := ⟨.ok, bind⟩

/-- Mapping a list in two ways agrees if it does at every element. -/
theorem mapM {f : α → Except ε γ} {g : α → Except ε δ} {xs : List α}
    (h : ∀ x ∈ xs, Agree S (f x) (g x)) : Agree (List.Forall₂ S) (xs.mapM f) (xs.mapM g) :=
  isSimulation.mapM h

/-- Two runs over one list agree if one step keeps the states related. -/
theorem foldlM {Q : σ → τ → Prop} {f : σ → α → Except ε σ} {g : τ → α → Except ε τ} {xs : List α}
    (hstep : ∀ s t x, x ∈ xs → Q s t → Agree Q (f s x) (g t x)) {s : σ} {t : τ} (h : Q s t) :
    Agree Q (xs.foldlM f s) (xs.foldlM g t) :=
  isSimulation.foldlM hstep h

/-- The image of a result agrees with it, along with what holds of its value. -/
theorem of_eq_map {f : β → α} {P : β → Prop} {x : Except ε α} {y : Except ε β} (h : x = y.map f)
    (hP : ∀ b, y = .ok b → P b) : Agree (fun a b => a = f b ∧ P b) x y := by
  subst h
  cases y with
  | error e => exact .error e
  | ok b => exact .ok ⟨rfl, hP b rfl⟩

/-- If agreement means that the first value is a function of the second, it
    means that the first result is the image of the second. -/
theorem iff_eq_map {f : β → α} {x : Except ε α} {y : Except ε β} :
    Agree (fun a b => a = f b) x y ↔ x = y.map f := by
  constructor
  · intro h
    cases h with
    | error e => rfl
    | ok h =>
      rw [h]
      rfl
  · intro h
    subst h
    cases y with
    | error e => exact .error e
    | ok b => exact .ok rfl

end Agree

/-! ### Simulation of computations that may be aborted -/

/-- A result is given at all: the computation is not aborted. -/
def IsGiven (x : Except Failure α) : Prop := ∀ path cause, x ≠ .error (.aborted path cause)

theorem IsGiven.of_bind {x : Except Failure α} {f : α → Except Failure β} (h : IsGiven (x >>= f)) :
    IsGiven x := by
  rintro path cause rfl
  exact h path cause rfl

theorem IsGiven.of_locatedAt {p : NodePath} {x : Except Failure α}
    (h : IsGiven (PlotGrammar.locatedAt p x)) : IsGiven x := by
  rintro path cause rfl
  exact h p cause rfl

/-- A result that fails as another one does is given if that one is. -/
theorem IsGiven.of_error_iff {x : Except Failure α} {y : Except Failure β} (h : IsGiven x)
    (hiff : ∀ e, x = .error e ↔ y = .error e) : IsGiven y :=
  fun path cause hy => h path cause ((hiff _).2 hy)

/-- Two results agree if both are given. -/
def AgreeIfGiven (R : α → β → Prop) (x : Except Failure α) (y : Except Failure β) : Prop :=
  IsGiven x → IsGiven y → Agree R x y

theorem Agree.ifGiven {R : α → β → Prop} {x : Except Failure α} {y : Except Failure β}
    (h : Agree R x y) : AgreeIfGiven R x y := fun _ _ => h

namespace AgreeIfGiven

variable {R : α → β → Prop} {S : γ → δ → Prop}

theorem bind {x : Except Failure α} {y : Except Failure β} {f : α → Except Failure γ}
    {g : β → Except Failure δ} (h : AgreeIfGiven R x y)
    (hS : ∀ a b, R a b → AgreeIfGiven S (f a) (g b)) : AgreeIfGiven S (x >>= f) (y >>= g) := by
  intro hleft hright
  cases h hleft.of_bind hright.of_bind with
  | error e => exact .error e
  | ok hab => exact hS _ _ hab hleft hright

theorem bind_same {x : Except Failure α} {f : α → Except Failure γ} {g : α → Except Failure δ}
    (hS : ∀ a, AgreeIfGiven S (f a) (g a)) : AgreeIfGiven S (x >>= f) (x >>= g) := by
  intro hleft hright
  cases x with
  | error e => exact .error e
  | ok a => exact hS a hleft hright

theorem locatedAt {x : Except Failure α} {y : Except Failure β} (h : AgreeIfGiven R x y)
    (p : NodePath) : AgreeIfGiven R (PlotGrammar.locatedAt p x) (PlotGrammar.locatedAt p y) :=
  fun hleft hright => (h hleft.of_locatedAt hright.of_locatedAt).locatedAt p

theorem isSimulation : IsSimulation fun _ _ R => AgreeIfGiven R :=
  ⟨fun h => Agree.ifGiven (.ok h), bind⟩

theorem mapM {f : α → Except Failure γ} {g : α → Except Failure δ} {xs : List α}
    (h : ∀ x ∈ xs, AgreeIfGiven S (f x) (g x)) :
    AgreeIfGiven (List.Forall₂ S) (xs.mapM f) (xs.mapM g) :=
  isSimulation.mapM h

theorem foldlM {Q : σ → τ → Prop} {f : σ → α → Except Failure σ} {g : τ → α → Except Failure τ}
    {xs : List α} (hstep : ∀ s t x, x ∈ xs → Q s t → AgreeIfGiven Q (f s x) (g t x)) {s : σ} {t : τ}
    (h : Q s t) : AgreeIfGiven Q (xs.foldlM f s) (xs.foldlM g t) :=
  isSimulation.foldlM hstep h

/-- Mapping two lists with elements fails alike if all elements do. -/
theorem mapM_of_ne_nil {f : α → Except Failure γ} {g : β → Except Failure δ} {xs : List α}
    {ys : List β} (hxs : xs ≠ []) (hys : ys ≠ [])
    (h : ∀ x ∈ xs, ∀ y ∈ ys, AgreeIfGiven (fun _ _ => True) (f x) (g y)) :
    AgreeIfGiven (fun _ _ => True) (xs.mapM f) (ys.mapM g) := by
  intro hleft hright
  -- The lists may differ in length, but on either side one element decides.
  obtain ⟨x, hx, hdecides⟩ := exists_decisive f hxs
  obtain ⟨y, hy, hdecides'⟩ := exists_decisive g hys
  have hagree := h x hx y hy (hleft.of_error_iff hdecides) (hright.of_error_iff hdecides')
  apply Agree.of_error_iff
  intro e
  rw [hdecides e, hdecides' e]
  exact hagree.error_iff e

end AgreeIfGiven

end PlotGrammar
