import EvmAssembler.Proofs.Navigation.Landing
import Mathlib.Algebra.Ring.Nat

/-!
# `EvmAssembler.Proofs.Navigation.Pieces`: going to an offset in pieces

A walk that has left a program `r` behind it goes on from `r` as if it had started there. So an
offset can be reached in pieces, each counted from where the one before has ended, and the pieces
come to what one walk of their sum comes to. Only the reports differ, for each is about the offset
that was asked for. `Program.Alike` leaves that difference open.

* `walk_add`: a walk continued is a walk from what the first part has left.
* `walk_extent_add`: a walk over a whole encodable program goes on into what stands behind it.
* `walk_append_of_ok` and `walk_append_of_error`: what stands behind a program is seen only by a
  walk that comes to the end of it.
* `walk_alike`: the offset that a walk reports has no other part in it.
* `dropBytes_foldlM`: any number of pieces, by induction over them.
-/

set_option autoImplicit false

namespace EvmAssembler.Program

/-! ### Continuing a walk -/

/-- A walk that has left `r` goes on from there. Nothing has been reported so far, so the offset
that would be reported may be another one. -/
theorem walk_add {offset : Int} {a : Nat} {p r : Program} (h : walk offset a p = .ok r)
    (further : Int) (b : Nat) : walk further (a + b) p = walk further b r := by
  fun_induction walk offset a p with
  | case1 p =>
    obtain rfl := Except.ok.inj h
    rw [Nat.zero_add]
  | case2 left => cases h
  | case3 left i rest ih =>
    obtain ⟨n, hn, h⟩ := except_bind_eq_ok_iff.mp h
    rw [show left + 1 + b = left + b + 1 by omega, walk, hn, except_bind_ok]
    split at h
    · cases h
    · -- The instruction is passed by the longer walk too.
      rw [if_neg (by omega), show left + b + 1 - n = left + 1 - n + b by omega]
      exact ih n h

/-- A walk beyond an encodable program goes on in what stands behind it. It has to go beyond, for
at the end it would stop before the annotations there. -/
theorem walk_extent_add {p : Program} (hp : p.Encodable) (offset : Int) {b : Nat} (hb : 0 < b)
    (q : Program) : walk offset (p.extent + b) (p ++ q) = walk offset b q := by
  induction p with
  | nil => rw [extent_nil, Nat.zero_add, List.nil_append]
  | cons i p ih =>
    obtain ⟨hi, hp⟩ := encodable_cons.mp hp
    rw [List.cons_append, extent_cons, walk_cons hi (by omega), if_neg (by omega),
      show i.extent + extent p + b - i.extent = extent p + b by omega]
    exact ih hp

/-- A walk that arrives leaves what stands behind the program as it is. -/
theorem walk_append_of_ok {offset : Int} {a : Nat} {p r : Program} (h : walk offset a p = .ok r)
    (q : Program) : walk offset a (p ++ q) = .ok (r ++ q) := by
  fun_induction walk offset a p with
  | case1 p =>
    obtain rfl := Except.ok.inj h
    rw [walk]
  | case2 left => cases h
  | case3 left i rest ih =>
    obtain ⟨n, hn, h⟩ := except_bind_eq_ok_iff.mp h
    rw [List.cons_append, walk, hn, except_bind_ok]
    split at h
    · cases h
    · rename_i hpassed
      rw [if_neg hpassed]
      exact ih n h

/-- A walk that fails before the end fails there whatever stands behind the program. -/
theorem walk_append_of_error {offset : Int} {a : Nat} {p : Program} {e : Error}
    (h : walk offset a p = .error e)
    (hend : (refuse (.malformedOffset offset .pastEnd) : Except Error Program) ≠ .error e)
    (q : Program) : walk offset a (p ++ q) = .error e := by
  fun_induction walk offset a p with
  | case1 p => cases h
  | case2 left => exact absurd h hend
  | case3 left i rest ih =>
    rw [List.cons_append, walk]
    cases hn : i.size with
    | error d =>
      rw [hn] at h
      exact h
    | ok n =>
      rw [hn, except_bind_ok] at h
      rw [except_bind_ok]
      split at h
      · rename_i hinside
        rw [if_pos hinside, h]
      · rename_i hpassed
        rw [if_neg hpassed]
        exact ih n h

/-! ### Outcomes that differ in the reported offset -/

/-- What going to an offset comes to, where one outcome is about the offset `m` and the other about
`n`: the same program is left, or the same reason is reported, each about its own offset, or the
same instruction has no bytes. -/
inductive Alike (m n : Int) : Except Error Program → Except Error Program → Prop where
  | rest (r : Program) : Alike m n (.ok r) (.ok r)
  | report (fault : OffsetFault) :
    Alike m n (refuse (.malformedOffset m fault)) (refuse (.malformedOffset n fault))
  | obstacle {i : Instruction} {e : Error} : i.encode = .error e → Alike m n (.error e) (.error e)

/-- Where one of the outcomes is a program, the other is the same. -/
theorem Alike.eq_ok {m n : Int} {x y : Except Error Program} (h : Alike m n x y) {r : Program}
    (hy : y = .ok r) : x = .ok r := by
  cases h with
  | rest s => exact hy
  | report fault => exact nomatch hy
  | obstacle _ => cases hy

/-- A walk does the same whatever offset it would report. -/
theorem walk_alike (m n : Int) (left : Nat) (p : Program) :
    Alike m n (walk m left p) (walk n left p) := by
  induction p generalizing left with
  | nil =>
    cases left with
    | zero => exact .rest []
    | succ left => exact .report .pastEnd
  | cons i p ih =>
    cases left with
    | zero => exact .rest (i :: p)
    | succ left =>
      rw [walk, walk]
      cases hi : i.encode with
      | error e =>
        rw [Instruction.size_eq_error_of_encode hi]
        exact .obstacle hi
      | ok bytes =>
        rw [Instruction.size_eq_ok_of_encode hi, except_bind_ok, except_bind_ok]
        split
        · exact .report .insideInstruction
        · exact ih _

/-! ### Going to offsets -/

/-- Going to an offset that is not negative is a walk. -/
theorem dropBytes_natCast (p : Program) (a : Nat) : p.dropBytes a = walk a a p := by
  rw [dropBytes, if_neg (by omega), Int.toNat_natCast]

/-- Going on from what is left at an offset is going on from there. -/
theorem alike_dropBytes_add {p r : Program} {a : Nat} (h : p.dropBytes a = .ok r) (b : Nat) :
    Alike (a + b : Nat) b (p.dropBytes (a + b : Nat)) (r.dropBytes b) := by
  rw [dropBytes_natCast] at h
  rw [dropBytes_natCast, dropBytes_natCast, walk_add h]
  exact walk_alike _ _ b r

/-- Whatever is reached in pieces is reached at once. -/
theorem dropBytes_foldlM {p r : Program} (pieces : List Nat)
    (h : pieces.foldlM (fun rest (piece : Nat) => dropBytes rest piece) p = .ok r) :
    p.dropBytes (pieces.sum : Nat) = .ok r := by
  induction pieces generalizing p with
  | nil =>
    obtain rfl : p = r := Except.ok.inj h
    rw [dropBytes_natCast]
    exact walk.eq_1 _ p
  | cons piece pieces ih =>
    rw [List.foldlM_cons] at h
    obtain ⟨rest, hrest, h⟩ := except_bind_eq_ok_iff.mp h
    rw [List.sum_cons]
    exact (alike_dropBytes_add hrest _).eq_ok (ih h)

/-- Offsets up to the sum of two that have fewer digits than the limit are reported. -/
theorem refuse_malformedOffset_of_le_add {k a b offset : Nat} (hk : k < Text.maxDecimalDigits)
    (ha : a < 10 ^ k) (hb : b < 10 ^ k) (hoffset : offset ≤ a + b) (fault : OffsetFault) :
    (refuse (.malformedOffset offset fault) : Except Error Program) =
      .error (.malformedOffset offset fault) := by
  have hlt : (offset : Int).natAbs < 10 ^ (k + 1) := by
    rw [Int.natAbs_natCast, Nat.pow_succ]
    omega
  exact refuse_malformedOffset (Text.hasDecimal_of_natAbs_lt hk hlt) fault

/-- Navigation is additive and local. Once the offset `a` of a program is reached, going on by `b`
is going to `a + b`, and any number of pieces that are gone one after another are one walk of their
sum. What stands behind the program has no say in reaching `a`, nor in failing to, unless the
program has ended before. Beyond the whole of an encodable program, offsets are those of what stands
behind it, with the size of the program added. All the offsets up to `a + b` can be reported. -/
theorem dropBytes_in_pieces (p : Program) {a b : Nat} (ha : a < 10 ^ 4000) (hb : b < 10 ^ 4000) :
    (∀ r, p.dropBytes a = .ok r →
      Alike (a + b : Nat) b (p.dropBytes (a + b : Nat)) (r.dropBytes b) ∧
        ∀ q, dropBytes (p ++ q) a = .ok (r ++ q)) ∧
      (∀ n q, p.size = .ok n → 0 < b →
        Alike (n + b : Nat) b (dropBytes (p ++ q) (n + b : Nat)) (dropBytes q b)) ∧
      (∀ e q, p.dropBytes a = .error e → e ≠ .malformedOffset a .pastEnd →
        dropBytes (p ++ q) a = .error e) ∧
      (∀ (pieces : List Nat) r,
        pieces.foldlM (fun rest (piece : Nat) => dropBytes rest piece) p = .ok r →
          p.dropBytes (pieces.sum : Nat) = .ok r) ∧
      ∀ (offset : Nat) fault, offset ≤ a + b →
        (refuse (.malformedOffset offset fault) : Except Error Program) =
          .error (.malformedOffset offset fault) := by
  have hshown : ∀ (offset : Nat) fault, offset ≤ a + b →
      (refuse (.malformedOffset offset fault) : Except Error Program) =
        .error (.malformedOffset offset fault) :=
    fun _ fault hoffset => refuse_malformedOffset_of_le_add (by decide) ha hb hoffset fault
  refine ⟨fun r hr => ⟨alike_dropBytes_add hr b, fun q => ?_⟩, fun n q hn hpos => ?_,
    fun e q he hend => ?_, fun pieces r => dropBytes_foldlM pieces, hshown⟩
  · rw [dropBytes_natCast] at hr ⊢
    exact walk_append_of_ok hr q
  · obtain ⟨hp, rfl⟩ := encodable_of_size hn
    rw [dropBytes_natCast, dropBytes_natCast, walk_extent_add hp _ hpos]
    exact walk_alike _ _ b q
  · rw [dropBytes_natCast] at he ⊢
    refine walk_append_of_error he ?_ q
    rw [hshown a .pastEnd (Nat.le_add_right a b)]
    exact fun heq => hend (Except.error.inj heq).symm

/-- Two pushes, and an addition under the wrong family. -/
def staircase : Program :=
  [.push [0x01], .push [0x02, 0x03], .fixed .stack (.opcode .ADD)]

/-- Behind the first push, one byte on is inside the second, which is reported as offset one from
there and as offset three from the front. With a jump destination behind the program, offset two is
still in front of the second push. -/
theorem dropBytes_in_pieces_staircase :
    2 < 10 ^ 4000 ∧ 1 < 10 ^ 4000 ∧ staircase.dropBytes 2 = .ok (staircase.drop 1) ∧
      staircase.dropBytes 3 = .error (.malformedOffset 3 .insideInstruction) ∧
      dropBytes (staircase.drop 1) 1 = .error (.malformedOffset 1 .insideInstruction) ∧
      Alike 3 1 (staircase.dropBytes 3) (dropBytes (staircase.drop 1) 1) ∧
      dropBytes (staircase ++ [.jumpdest]) 2 = .ok (staircase.drop 1 ++ [.jumpdest]) := by
  have hpow : ∀ k n, n < 10 ^ 1 → 1 ≤ k → n < 10 ^ k := fun k n hn hk =>
    Nat.lt_of_lt_of_le hn (Nat.pow_le_pow_right (by decide) hk)
  have ha : 2 < 10 ^ 4000 := hpow 4000 2 (by decide) (by decide)
  have hb : 1 < 10 ^ 4000 := hpow 4000 1 (by decide) (by decide)
  obtain ⟨hreached, -, -, -, hshown⟩ := dropBytes_in_pieces staircase ha hb
  have hfront : staircase.dropBytes 2 = .ok (staircase.drop 1) := rfl
  obtain ⟨halike, happend⟩ := hreached _ hfront
  exact ⟨ha, hb, hfront, hshown 3 .insideInstruction (by decide),
    hshown 1 .insideInstruction (by decide), halike, happend [.jumpdest]⟩

end EvmAssembler.Program
