import Mathlib.Data.List.Forall2

/-!
# `EvmAssembler.Proofs.Result`: results that succeed or fail

Every pass of the library composes results of type `Except`. The lemmas here take such a
composition apart without opening it:

* `except_bind_eq_ok_iff` and `except_map_eq_ok_iff`: it succeeds when all of its parts do.
* `mapM_eq_ok_iff` and `mapM_eq_error_iff`: a list is gone through item by item, and the
  first item that fails is the only reason for a failure.
-/

set_option autoImplicit false

namespace EvmAssembler

variable {ε α β : Type}

/-- Going on after a success. -/
theorem except_bind_ok (a : α) (f : α → Except ε β) : (Except.ok a).bind f = f a := rfl

/-- Nothing goes on after a failure. -/
theorem except_bind_error (e : ε) (f : α → Except ε β) :
    (Except.error e : Except ε α).bind f = .error e := rfl

/-- A composition succeeds exactly when both of its parts do. -/
theorem except_bind_eq_ok_iff {x : Except ε α} {f : α → Except ε β} {b : β} :
    x.bind f = .ok b ↔ ∃ a, x = .ok a ∧ f a = .ok b := by
  cases x with
  | ok a => simp [except_bind_ok]
  | error e => simp [except_bind_error]

/-- A changed result succeeds exactly when the result does. -/
theorem except_map_eq_ok_iff {x : Except ε α} {f : α → β} {b : β} :
    x.map f = .ok b ↔ ∃ a, x = .ok a ∧ f a = b := by
  cases x with
  | ok a => simp [Except.map]
  | error e => simp [Except.map]

/-- Successes can be compared where errors cannot. -/
theorem eq_ok_of_toOption {x : Except ε α} {a : α} (h : x.toOption = some a) : x = .ok a := by
  cases x with
  | ok b => rw [Option.some.inj h]
  | error e => cases h

/-- Going through a list, the first item comes first. -/
theorem mapM_cons_eq_bind (f : α → Except ε β) (a : α) (as : List α) :
    (a :: as).mapM f = (f a).bind fun b => (as.mapM f).bind fun bs => .ok (b :: bs) :=
  List.mapM_cons

/-- Going through a list succeeds exactly with the items' own results, in order. -/
theorem mapM_eq_ok_iff {f : α → Except ε β} {as : List α} {bs : List β} :
    as.mapM f = .ok bs ↔ List.Forall₂ (fun a b => f a = .ok b) as bs := by
  induction as generalizing bs with
  | nil =>
    rw [List.mapM_nil, List.forall₂_nil_left_iff]
    exact ⟨fun h => (Except.ok.inj h).symm, fun h => by rw [h]; rfl⟩
  | cons a as ih =>
    rw [mapM_cons_eq_bind, except_bind_eq_ok_iff, List.forall₂_cons_left_iff]
    constructor
    · rintro ⟨b, hb, h⟩
      obtain ⟨rest, hrest, hbs⟩ := except_bind_eq_ok_iff.mp h
      exact ⟨b, rest, hb, ih.mp hrest, (Except.ok.inj hbs).symm⟩
    · rintro ⟨b, rest, hb, hrest, rfl⟩
      exact ⟨b, hb, except_bind_eq_ok_iff.mpr ⟨rest, ih.mpr hrest, rfl⟩⟩

/-- A list has partners in order exactly when each of its items has one. -/
theorem exists_forall₂_iff {R : α → β → Prop} {as : List α} :
    (∃ bs, List.Forall₂ R as bs) ↔ ∀ a ∈ as, ∃ b, R a b := by
  induction as with
  | nil =>
    refine ⟨fun _ a ha => ?_, fun _ => ⟨[], .nil⟩⟩
    cases ha
  | cons a as ih =>
    rw [List.forall_mem_cons, ← ih]
    constructor
    · rintro ⟨_, hbs⟩
      cases hbs with
      | @cons _ b _ bs hb hbs => exact ⟨⟨b, hb⟩, bs, hbs⟩
    · rintro ⟨⟨b, hb⟩, bs, hbs⟩
      exact ⟨b :: bs, .cons hb hbs⟩

/-- Relations that agree on the items of a list give it the same partners. -/
theorem forall₂_congr_of_mem {R S : α → β → Prop} {as : List α} {bs : List β}
    (h : ∀ a ∈ as, ∀ b, R a b ↔ S a b) : List.Forall₂ R as bs ↔ List.Forall₂ S as bs := by
  induction as generalizing bs with
  | nil => rw [List.forall₂_nil_left_iff, List.forall₂_nil_left_iff]
  | cons a as ih =>
    have hrest : ∀ rest, List.Forall₂ R as rest ↔ List.Forall₂ S as rest := by
      intro rest
      exact ih fun b hb => h b (List.mem_cons_of_mem a hb)
    rw [List.forall₂_cons_left_iff, List.forall₂_cons_left_iff]
    simp only [h a List.mem_cons_self, hrest]

/-- Going through a list fails exactly with the first item that does. -/
theorem mapM_eq_error_iff {f : α → Except ε β} {as : List α} {e : ε} :
    as.mapM f = .error e ↔ ∃ before a after, as = before ++ a :: after ∧
      (∀ b ∈ before, ∃ c, f b = .ok c) ∧ f a = .error e := by
  induction as with
  | nil =>
    constructor
    · intro h
      cases h
    · rintro ⟨before, a, after, h, -⟩
      cases before <;> cases h
  | cons a as ih =>
    rw [mapM_cons_eq_bind]
    cases ha : f a with
    | error d =>
      rw [except_bind_error]
      constructor
      · intro h
        obtain rfl := Except.error.inj h
        exact ⟨[], a, as, rfl, by simp, ha⟩
      · rintro ⟨before, b, after, heq, hbefore, hb⟩
        cases before with
        | nil =>
          obtain ⟨rfl, -⟩ := List.cons.inj heq
          rw [ha] at hb
          rw [Except.error.inj hb]
        | cons c before =>
          -- The item at the front has failed, so nothing can stand before the one that does.
          obtain ⟨rfl, -⟩ := List.cons.inj heq
          obtain ⟨d, hd⟩ := hbefore a List.mem_cons_self
          rw [ha] at hd
          cases hd
    | ok b =>
      have hbind : ((as.mapM f).bind fun bs => .ok (b :: bs)) = .error e ↔
          as.mapM f = .error e := by
        cases as.mapM f with
        | ok bs => simp [except_bind_ok]
        | error d => simp [except_bind_error]
      rw [except_bind_ok, hbind, ih]
      constructor
      · rintro ⟨before, c, after, rfl, hbefore, hc⟩
        refine ⟨a :: before, c, after, rfl, fun d hd => ?_, hc⟩
        rcases List.mem_cons.mp hd with rfl | hd
        · exact ⟨b, ha⟩
        · exact hbefore d hd
      · rintro ⟨before, c, after, heq, hbefore, hc⟩
        cases before with
        | nil =>
          obtain ⟨rfl, -⟩ := List.cons.inj heq
          rw [ha] at hc
          cases hc
        | cons d before =>
          obtain ⟨rfl, rfl⟩ := List.cons.inj heq
          exact ⟨before, c, after, rfl, fun x hx => hbefore x (List.mem_cons_of_mem _ hx), hc⟩

end EvmAssembler
