import EvmAssembler.Datum.Render
import EvmAssembler.Proofs.Keys
import Mathlib.Algebra.Order.Ring.Nat
import Mathlib.Data.List.Perm.Subperm

/-!
# `EvmAssembler.Proofs.Equality.Datum`: equal plain data can be shown alike

Equal data may differ in form: a truth value equals an integer, an integer a real, and a dictionary
one with its entries in another order. Whether a message can show a datum does not depend on any of
this (`isShowable_eq_of_agrees`). An integer that is too long to be shown equals no truth value, and
it equals no real either, for a real has a thousand and some binary digits at most
(`Binary64.isWithin_quantity`).

This is so of plain data (`Datum.IsPlain`). An object may equal an integer that is too long, and
still have a text. And the entries of a dictionary are kept in a list, where nothing keeps a key
from standing twice, as it never does in a dictionary.
-/

set_option autoImplicit false

namespace EvmAssembler

/-! ### Numbers -/

namespace Quantity

/-- The quantity is below a limit, its sign aside. What is not finite has no digits to count. -/
def IsWithin (limit : Nat) : Quantity → Prop
  | finite n scale => n.natAbs < limit * 2 ^ scale
  | _ => True

/-- Doubling an integer doubles its absolute value as often. -/
theorem natAbs_doubled (n : Int) (k : Nat) : (doubled n k).natAbs = n.natAbs * 2 ^ k :=
  Int.natAbs_mul n _

/-- Equal quantities are within the same limits. -/
theorem isWithin_iff_of_same {p q : Quantity} (h : p.same q = true) (limit : Nat) :
    p.IsWithin limit ↔ q.IsWithin limit := by
  cases p with
  | finite m i =>
    cases q with
    | finite n j =>
      -- Both sides are multiplied by the other's denominator.
      have hcross : m.natAbs * 2 ^ j = n.natAbs * 2 ^ i := by
        rw [← natAbs_doubled, ← natAbs_doubled, beq_iff_eq.mp h]
      calc m.natAbs < limit * 2 ^ i
          ↔ m.natAbs * 2 ^ j < limit * 2 ^ i * 2 ^ j :=
            (Nat.mul_lt_mul_right (Nat.two_pow_pos j)).symm
        _ ↔ n.natAbs * 2 ^ i < limit * 2 ^ j * 2 ^ i := by
            rw [hcross, Nat.mul_right_comm limit]
        _ ↔ n.natAbs < limit * 2 ^ j := Nat.mul_lt_mul_right (Nat.two_pow_pos i)
    | infinite _ => cases h
    | undefined => cases h
  | infinite _ =>
    cases q with
    | finite n j => cases h
    | infinite _ => exact Iff.rfl
    | undefined => cases h
  | undefined => cases q <;> cases h

end Quantity

namespace Binary64

/-- The stored fraction has 52 bits. -/
theorem fraction_lt (x : Binary64) : x.fraction < 2 ^ 52 := by
  rw [fraction, UInt64.toNat_and]
  exact Nat.and_lt_two_pow _ (by decide)

/-- With the hidden bit in front of it, the mantissa has one bit more. -/
theorem mantissa_lt (x : Binary64) : x.mantissa < 2 ^ 53 := by
  have hfraction := x.fraction_lt
  have hhidden : hiddenBit = 2 ^ 52 := rfl
  rw [mantissa]
  split <;> omega

/-- The stored exponent has 11 bits, and the largest of its values is kept for what is not
finite. -/
theorem toNat_exponent_le {x : Binary64} (h : x.isFinite = true) : x.exponent.toNat ≤ 971 := by
  have hstored : x.storedExponent < 2047 := of_decide_eq_true h
  rw [exponent]
  omega

/-- Every real is within the limit of decimal numerals, and far so. -/
theorem isWithin_quantity (x : Binary64) : x.quantity.IsWithin Text.decimalLimit := by
  rw [quantity]
  split
  · rename_i hfinite
    dsimp only [Quantity.IsWithin]
    have hsign : (if x.negative = true then -(x.mantissa : Int) else x.mantissa).natAbs =
        x.mantissa := by
      split <;> simp
    -- A power of two is below that of ten, so there is no need to compute either.
    have hdigits : 53 + x.exponent.toNat ≤ Text.maxDecimalDigits := by
      have := toNat_exponent_le hfinite
      rw [Text.maxDecimalDigits]
      omega
    rw [Quantity.natAbs_doubled, hsign]
    calc x.mantissa * 2 ^ x.exponent.toNat
        < 2 ^ 53 * 2 ^ x.exponent.toNat :=
          (Nat.mul_lt_mul_right (Nat.two_pow_pos _)).mpr x.mantissa_lt
      _ = 2 ^ (53 + x.exponent.toNat) := (Nat.pow_add 2 53 _).symm
      _ ≤ 10 ^ (53 + x.exponent.toNat) := Nat.pow_le_pow_left (by decide) _
      _ ≤ Text.decimalLimit := Text.pow_le_decimalLimit hdigits
      _ ≤ Text.decimalLimit * 2 ^ (-x.exponent).toNat :=
          Nat.le_mul_of_pos_right _ (Nat.two_pow_pos _)
  · split <;> trivial

end Binary64

namespace Datum

/-- A number can be shown exactly if its quantity is within the decimal limit. -/
theorem isShowable_iff_of_quantity? {x : Datum} {q : Quantity} (h : x.quantity? = some q) :
    x.isShowable = true ↔ q.IsWithin Text.decimalLimit := by
  cases x with
  | bool b =>
    obtain rfl := Option.some.inj h
    refine iff_of_true rfl ?_
    have hlimit : 10 ^ 1 ≤ Text.decimalLimit := @Text.pow_le_decimalLimit 1 (by decide)
    dsimp only [Quantity.IsWithin]
    split <;> omega
  | int n =>
    obtain rfl := Option.some.inj h
    dsimp only [Quantity.IsWithin]
    rw [isShowable, Text.hasDecimal, decide_eq_true_iff, Nat.pow_zero, Nat.mul_one]
  | real x =>
    obtain rfl := Option.some.inj h
    exact iff_of_true rfl x.isWithin_quantity
  | _ => cases h

/-- What has a likeness equals what has an equal one. -/
theorem same_eq_any_of_likeness? {x : Datum} {l : Likeness} (hx : x.likeness? = some l)
    (y : Datum) : x.same y = y.likeness?.any l.same := by
  cases x with
  | bool _ | int _ | real _ | object _ =>
    obtain rfl := Option.some.inj hx
    rw [same]
    · cases y.likeness? <;> rfl
    all_goals nofun
  | _ => cases hx

/-- An integer agrees with every object that is a number of its value. -/
theorem agrees_int_object {n : Int} {o : Object} (h : o.likeness = .number (.finite n 0)) :
    (int n).agrees (object o) = true := by
  have hn : (int n).likeness? = some (.number (.finite n 0)) := rfl
  rw [agrees, same_eq_any_of_likeness? hn, likeness?, h, Option.any_some]
  simp [Likeness.same, Quantity.same]

/-- An integer or a text. -/
def IsScalar : Datum → Prop
  | int _ | text _ => True
  | _ => False

/-- Integers and texts have no other form that they are equal to. -/
theorem agrees_iff_of_isScalar {x y : Datum} (hx : x.IsScalar) (hy : y.IsScalar) :
    x.agrees y = true ↔ x = y := by
  cases x with
  | int m =>
    cases y with
    | int n =>
      simp [agrees, same, isUndefined, likeness?, quantity?, Likeness.same, Quantity.same,
        Quantity.doubled]
    | text s => simp [agrees, same, isUndefined, likeness?, quantity?]
    | _ => cases hy
  | text s =>
    cases y with
    | int n => simp [agrees, same, isUndefined, likeness?, quantity?]
    | text s' => simp [agrees, same, isUndefined, likeness?, quantity?]
    | _ => cases hy
  | _ => cases hx

/-! ### Dictionaries -/

/-- Dictionaries are equal when they have the same size and the entries of one are in the other. -/
theorem agrees_dict_iff {xs ys : List (String × Datum)} :
    (dict xs).agrees (dict ys) = true ↔ xs.length = ys.length ∧ sameEntries xs ys = true := by
  simp [agrees, same, isUndefined, likeness?, quantity?]

/-- An entry is looked up under its key. -/
theorem sameEntries_cons_iff {key : String} {x : Datum} {xs ys : List (String × Datum)} :
    sameEntries ((key, x) :: xs) ys = true ↔
      (∃ y, ys.lookup key = some y ∧ x.agrees y = true) ∧ sameEntries xs ys = true := by
  rw [sameEntries, Bool.and_eq_true]
  refine and_congr_left fun _ => ?_
  cases ys.lookup key with
  | none => simp
  | some y =>
    show x.agrees y = true ↔ _
    simp

/-- The values of a dictionary can be shown if each of them can. -/
theorem entriesShowable_iff {entries : List (String × Datum)} :
    entriesShowable entries = true ↔ ∀ e ∈ entries, e.2.isShowable = true := by
  induction entries with
  | nil => simp [entriesShowable]
  | cons e rest ih =>
    obtain ⟨key, x⟩ := e
    rw [entriesShowable, Bool.and_eq_true, ih, List.forall_mem_cons]

/-- Where the keys of one list of entries are distinct, and another list has as many entries and
one for each of the keys, the keys are the same. -/
theorem perm_keys {xs ys : List (String × Datum)} (distinct : (xs.map Prod.fst).Nodup)
    (hlength : xs.length = ys.length)
    (h : ∀ e ∈ xs, (ys.lookup e.1).isSome = true) : (xs.map Prod.fst).Perm (ys.map Prod.fst) := by
  refine (distinct.subperm fun key hkey => ?_).perm_of_length_le ?_
  · obtain ⟨e, he, rfl⟩ := List.mem_map.mp hkey
    obtain ⟨found, hfound, hkey⟩ := List.lookup_isSome_iff.mp (h e he)
    exact List.mem_map.mpr ⟨found, hfound, (beq_iff_eq.mp hkey).symm⟩
  · rw [List.length_map, List.length_map, hlength]

/-- Such lists can be shown alike if what they have under each key can. -/
theorem entriesShowable_eq {xs ys : List (String × Datum)} (distinct : (xs.map Prod.fst).Nodup)
    (hlength : xs.length = ys.length)
    (h : ∀ e ∈ xs, ∃ y, ys.lookup e.1 = some y ∧ e.2.isShowable = y.isShowable) :
    entriesShowable xs = entriesShowable ys := by
  have hperm := perm_keys distinct hlength fun e he => by
    obtain ⟨y, hy, -⟩ := h e he
    rw [hy]
    rfl
  have hys : (ys.map Prod.fst).Nodup := hperm.nodup_iff.mp distinct
  rw [Bool.eq_iff_iff, entriesShowable_iff, entriesShowable_iff]
  constructor
  · intro hall e he
    -- An entry of the second list has its key in the first, and is what is found there.
    obtain ⟨e', he', hkey⟩ := List.mem_map.mp (hperm.mem_iff.mpr (List.mem_map_of_mem he))
    obtain ⟨y, hy, hshow⟩ := h e' he'
    rw [hkey, (lookup_eq_some_iff_mem hys).mpr he] at hy
    rw [Option.some.inj hy, ← hshow]
    exact hall e' he'
  · intro hall e he
    obtain ⟨y, hy, hshow⟩ := h e he
    rw [hshow]
    exact hall _ ((lookup_eq_some_iff_mem hys).mp hy)

/-! ### Plain data -/

mutual

/-- No part of the datum is an object, and no dictionary in it has a key twice. -/
def IsPlain : Datum → Prop
  | list items => ArePlain items
  | dict entries => (entries.map Prod.fst).Nodup ∧ EntriesPlain entries
  | object _ => False
  | _ => True

/-- The items of a list are plain. -/
def ArePlain : List Datum → Prop
  | [] => True
  | x :: rest => IsPlain x ∧ ArePlain rest

/-- The values of a dictionary are plain. -/
def EntriesPlain : List (String × Datum) → Prop
  | [] => True
  | (_, x) :: rest => IsPlain x ∧ EntriesPlain rest

end

/-- They are plain if each of them is. -/
theorem entriesPlain_iff {entries : List (String × Datum)} :
    EntriesPlain entries ↔ ∀ e ∈ entries, e.2.IsPlain := by
  induction entries with
  | nil => simp [EntriesPlain]
  | cons e rest ih =>
    obtain ⟨key, x⟩ := e
    rw [EntriesPlain, ih, List.forall_mem_cons]

/-- Equal numbers can be shown alike. -/
theorem isShowable_eq_of_number {x y : Datum} {p : Quantity} (hx : x.quantity? = some p)
    (hlike : x.likeness? = some (.number p)) (hy : y.IsPlain) (h : x.same y = true) :
    x.isShowable = y.isShowable := by
  rw [same_eq_any_of_likeness? hlike, Option.any_eq_true] at h
  obtain ⟨l, hl, hsame⟩ := h
  have hquantity : y.likeness? = y.quantity?.map .number := by
    cases y with
    | object o => cases hy
    | _ => rfl
  obtain ⟨q, hq, rfl⟩ := Option.map_eq_some_iff.mp (hquantity.symm.trans hl)
  rw [Bool.eq_iff_iff, isShowable_iff_of_quantity? hx, isShowable_iff_of_quantity? hq]
  exact Quantity.isWithin_iff_of_same hsame _

/-- A plain number that is undefined can be shown. -/
theorem isShowable_of_isUndefined {x : Datum} (hx : x.IsPlain) (h : x.isUndefined = true) :
    x.isShowable = true := by
  cases x with
  | real x => rfl
  | object o => cases hx
  | _ => cases h

/-- What agrees is equal, or undefined on both sides. -/
theorem isShowable_eq_of_agrees_of_same {x y : Datum} (hx : x.IsPlain) (hy : y.IsPlain)
    (hsame : x.same y = true → x.isShowable = y.isShowable) (h : x.agrees y = true) :
    x.isShowable = y.isShowable := by
  rcases Bool.or_eq_true_iff.mp h with h | h
  · exact hsame h
  · obtain ⟨hxu, hyu⟩ := Bool.and_eq_true_iff.mp h
    rw [isShowable_of_isUndefined hx hxu, isShowable_of_isUndefined hy hyu]

mutual

/-- Equal plain data can be shown alike. -/
theorem isShowable_eq_of_same : (x y : Datum) → x.IsPlain → y.IsPlain → x.same y = true →
    x.isShowable = y.isShowable
  | .null, y, _, _, h => by
    cases y with
    | null => rfl
    | _ => simp [same, likeness?, quantity?] at h
  | .bool b, _, _, hy, h => isShowable_eq_of_number rfl rfl hy h
  | .int n, _, _, hy, h => isShowable_eq_of_number rfl rfl hy h
  | .real x, _, _, hy, h => isShowable_eq_of_number rfl rfl hy h
  | .text s, y, _, _, h => by
    cases y with
    | text t => rfl
    | _ => simp [same, likeness?, quantity?] at h
  | .list xs, y, hx, hy, h => by
    cases y with
    | list ys =>
      rw [same] at h
      exact areShowable_eq_of_sameItems xs ys hx hy h
    | _ => simp [same, likeness?, quantity?] at h
  | .dict xs, y, hx, hy, h => by
    cases y with
    | dict ys =>
      rw [same, Bool.and_eq_true, beq_iff_eq] at h
      have hys : ∀ key y, ys.lookup key = some y → y.IsPlain := fun key y hlookup =>
        entriesPlain_iff.mp hy.2 _ ((lookup_eq_some_iff_mem hy.1).mp hlookup)
      exact entriesShowable_eq hx.1 h.1 (exists_of_sameEntries xs ys hx.2 hys h.2)
    | _ => simp [same, likeness?, quantity?] at h
  | .object _, _, hx, _, _ => False.elim hx

/-- Equal lists can be shown alike, item by item. -/
theorem areShowable_eq_of_sameItems : (xs ys : List Datum) → ArePlain xs → ArePlain ys →
    sameItems xs ys = true → areShowable xs = areShowable ys
  | [], [], _, _, _ => rfl
  | [], _ :: _, _, _, h => by simp [sameItems] at h
  | _ :: _, [], _, _, h => by simp [sameItems] at h
  | x :: xs, y :: ys, hx, hy, h => by
    rw [sameItems, Bool.and_eq_true] at h
    rw [areShowable, areShowable, areShowable_eq_of_sameItems xs ys hx.2 hy.2 h.2,
      isShowable_eq_of_agrees_of_same hx.1 hy.1 (isShowable_eq_of_same x y hx.1 hy.1) h.1]

/-- What one dictionary has under a key can be shown like what an equal one has there. -/
theorem exists_of_sameEntries : (xs ys : List (String × Datum)) → EntriesPlain xs →
    (∀ key y, ys.lookup key = some y → y.IsPlain) → sameEntries xs ys = true →
      ∀ e ∈ xs, ∃ y, ys.lookup e.1 = some y ∧ e.2.isShowable = y.isShowable
  | [], _, _, _, _ => by simp
  | (key, x) :: xs, ys, hx, hys, h => by
    obtain ⟨⟨y, hy, hagrees⟩, hrest⟩ := sameEntries_cons_iff.mp h
    rw [List.forall_mem_cons]
    exact ⟨⟨y, hy, isShowable_eq_of_agrees_of_same hx.1 (hys key y hy)
      (isShowable_eq_of_same x y hx.1 (hys key y hy)) hagrees⟩,
      exists_of_sameEntries xs ys hx.2 hys hrest⟩

end

/-- Plain data that agree as parts of something larger can be shown alike. -/
theorem isShowable_eq_of_agrees {x y : Datum} (hx : x.IsPlain) (hy : y.IsPlain)
    (h : x.agrees y = true) : x.isShowable = y.isShowable :=
  isShowable_eq_of_agrees_of_same hx hy (isShowable_eq_of_same x y hx hy) h

end Datum

end EvmAssembler
