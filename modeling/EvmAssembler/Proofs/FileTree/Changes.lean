import EvmAssembler.FileTree
import EvmAssembler.Proofs.Result
import Mathlib.Data.List.Infix

/-!
# `EvmAssembler.Proofs.FileTree.Changes`: what file operations change

A file operation changes a tree at one location, and never where there is a directory
(`FileTree.node?_put`). So directories stay, and with them everything that a path leads to
(`FileTree.locate_of_keeps`). From this follow the two facts that a run of the command line rests
on:

* what has been written is read, at the location that the path led to before
  (`FileTree.Writes`),
* making a directory with all that leads to it leaves what was there, and what is new are
  directories on the way (`FileTree.Extends`), be it that it succeeds or that it fails.
-/

set_option autoImplicit false

namespace EvmAssembler

namespace FileTree

variable {t t' t'' : FileTree} {l m : Location} {p : Path} {content : ByteArray}

/-! ### One node -/

/-- Entries of other keys do not matter when a key is looked up. -/
theorem lookup_filter_ne {α β : Type} [BEq α] [LawfulBEq α] {a b : α} (h : a ≠ b)
    (entries : List (α × β)) :
    (entries.filter (·.1 != b)).lookup a = entries.lookup a := by
  induction entries with
  | nil => rfl
  | cons entry entries ih =>
    obtain ⟨key, value⟩ := entry
    by_cases hkey : key = b
    · rw [List.filter_cons_of_neg (by simp [hkey]), ih, List.lookup_cons,
        beq_eq_false_iff_ne.mpr (hkey ▸ h)]
    · rw [List.filter_cons_of_pos (by simp [hkey]), List.lookup_cons, List.lookup_cons, ih]

/-- Where there is no directory, the node that is set is there afterwards, and every other location
is as before. -/
theorem node?_put (h : t.node? l ≠ some .directory) (n : Node) (m : Location) :
    (t.put l n).node? m = if m = l then some n else t.node? m := by
  by_cases hm : m = ["/"] ∨ m.all (· == "..")
  · -- The directories that are there in every tree are none of the nodes that can be set.
    have hne : m ≠ l := by
      rintro rfl
      exact h (if_pos hm)
    rw [if_neg hne, node?, node?, if_pos hm, if_pos hm]
  · rw [node?, if_neg hm, put, List.lookup_cons]
    by_cases heq : m = l
    · rw [if_pos heq, beq_iff_eq.mpr heq]
    · rw [if_neg heq, beq_eq_false_iff_ne.mpr heq, lookup_filter_ne heq, node?, if_neg hm]

/-! ### Directories that stay -/

/-- The directories of the first tree are directories of the second. -/
def Keeps (t t' : FileTree) : Prop :=
  ∀ l, t.node? l = some .directory → t'.node? l = some .directory

/-- Setting a node keeps all directories, unless it takes the place of one. -/
theorem keeps_put (h : t.node? l ≠ some .directory) (n : Node) : t.Keeps (t.put l n) := by
  intro m hm
  have hne : m ≠ l := by
    rintro rfl
    exact h hm
  rw [node?_put h, if_neg hne, hm]

/-- Components are followed through directories, so where those stay they lead to the same place. -/
theorem follow_of_keeps (hkeeps : t.Keeps t') {parts : List String}
    (h : t.follow l parts = .ok m) : t'.follow l parts = .ok m := by
  induction parts generalizing l with
  | nil => exact h
  | cons part parts ih =>
    rw [follow] at h ⊢
    split at h
    · rename_i hdirectory
      rw [hkeeps l hdirectory]
      dsimp only
      split at h
      · cases h
      · rename_i hlength
        rw [if_neg hlength]
        exact ih h
    · cases h
    · cases h

/-- Where directories stay, a path goes on to lead where it did. -/
theorem locate_of_keeps (hkeeps : t.Keeps t') (h : t.locate p = .ok l) : t'.locate p = .ok l := by
  rw [locate, followText] at h ⊢
  split at h
  · cases h
  · rename_i hnull
    rw [if_neg hnull]
    split at h
    · cases h
    · rename_i hlength
      rw [if_neg hlength]
      exact follow_of_keeps hkeeps h

/-! ### Writing a file -/

/-- The second tree is the first with a file at the location that a path leads to. -/
structure Writes (t : FileTree) (p : Path) (content : ByteArray) (l : Location) (t' : FileTree) :
    Prop where
  keeps : t.Keeps t'
  located : t.locate p = .ok l
  free : t.node? l ≠ some .directory
  written : t'.node? l = some (.file content)
  others : ∀ m, m ≠ l → t'.node? m = t.node? m

/-- What a write does. -/
theorem exists_writes (h : t.write p content = .ok t') : ∃ l, Writes t p content l t' := by
  obtain ⟨l, hl, hput⟩ := except_bind_eq_ok_iff.mp h
  have hfree : t.node? l ≠ some .directory := by
    intro hdirectory
    rw [hdirectory] at hput
    cases hput
  have hset : t' = t.put l (.file content) := by
    split at hput
    · cases hput
    · exact (Except.ok.inj hput).symm
  subst hset
  refine ⟨l, keeps_put hfree _, hl, hfree, ?_, fun m hm => ?_⟩
  · rw [node?_put hfree, if_pos rfl]
  · rw [node?_put hfree, if_neg hm]

/-- What has been written is what is read. -/
theorem Writes.read_eq (h : Writes t p content l t') : t'.read p = .ok content := by
  rw [read, locate_of_keeps h.keeps h.located, except_bind_ok, h.written]

/-- A write makes no directory and takes none away. -/
theorem Writes.directory_iff (h : Writes t p content l t') :
    t'.node? m = some .directory ↔ t.node? m = some .directory := by
  by_cases hm : m = l
  · subst hm
    rw [h.written]
    simp [h.free]
  · rw [h.others m hm]

/-! ### Making directories -/

/-- The second tree is the first with new directories on the way to a path. -/
structure Extends (t : FileTree) (p : Path) (t' : FileTree) : Prop where
  kept : ∀ l n, t.node? l = some n → t'.node? l = some n
  made : ∀ l n, t.node? l = none → t'.node? l = some n →
    n = .directory ∧ ∃ above, above <+: p.parts ∧ t'.locate ⟨p.anchor, above⟩ = .ok l

/-- A tree that is left as it was is extended by nothing. -/
theorem Extends.refl (t : FileTree) (p : Path) : Extends t p t := by
  refine ⟨fun _ _ h => h, fun l n hnone hsome => ?_⟩
  rw [hnone] at hsome
  cases hsome

/-- New directories take the place of nothing, so those that were there stay. -/
theorem Extends.keeps (h : Extends t p t') : t.Keeps t' :=
  fun l hl => h.kept l .directory hl

/-- New directories on the way to a directory, and then more of them below. -/
theorem Extends.trans {anchor : String} {above parts : List String}
    (h : Extends t ⟨anchor, above⟩ t') (habove : above <+: parts)
    (h' : Extends t' ⟨anchor, parts⟩ t'') : Extends t ⟨anchor, parts⟩ t'' := by
  refine ⟨fun l n hn => h'.kept l n (h.kept l n hn), fun l n hnone hsome => ?_⟩
  cases hfirst : t'.node? l with
  | none => exact h'.made l n hfirst hsome
  | some first =>
    -- It has been made in the first step, and the second leaves it there.
    obtain ⟨hdirectory, higher, hhigher, hlocate⟩ := h.made l first hnone hfirst
    obtain rfl := Option.some.inj ((h'.kept l first hfirst).symm.trans hsome)
    exact ⟨hdirectory, higher, hhigher.trans habove, locate_of_keeps h'.keeps hlocate⟩

/-- Making one directory. -/
theorem extends_of_makeDirectory (h : t.makeDirectory p = .ok t') : Extends t p t' := by
  obtain ⟨l, hl, hput⟩ := except_bind_eq_ok_iff.mp h
  cases hnone : t.node? l with
  | some n =>
    rw [hnone] at hput
    cases hput
  | none =>
    rw [hnone] at hput
    obtain rfl := Except.ok.inj hput
    -- The new directory is put where there was nothing, so all other nodes stay what they are.
    have hfree : t.node? l ≠ some .directory := by simp [hnone]
    have hkeeps := keeps_put hfree .directory
    constructor
    · intro m n hn
      have hne : m ≠ l := by
        rintro rfl
        rw [hnone] at hn
        cases hn
      rw [node?_put hfree, if_neg hne, hn]
    · intro m n hm hn
      rw [node?_put hfree] at hn
      split at hn
      · rename_i heq
        subst heq
        exact ⟨(Option.some.inj hn).symm, p.parts, List.prefix_rfl, locate_of_keeps hkeeps hl⟩
      · rw [hm] at hn
        cases hn

/-- Making one directory unless it is there. -/
theorem extends_of_ensureOne (h : t.ensureOne p = .ok t') : Extends t p t' := by
  rw [ensureOne] at h
  split at h
  · rename_i made hmade
    obtain rfl := Except.ok.inj h
    exact extends_of_makeDirectory hmade
  · split at h
    · obtain rfl := Except.ok.inj h
      exact .refl t p
    · cases h

/-- What is above a directory is on the way to it. -/
theorem reverse_prefix_reverse_cons (part : String) (above : List String) :
    above.reverse <+: (part :: above).reverse := by
  rw [List.reverse_cons]
  exact List.prefix_append _ _

/-- Making directories from the top down. -/
theorem extends_of_ensureParts {anchor : String} {room : Nat} {parts : List String}
    (h : t.ensureParts anchor room parts = .ok t') : Extends t ⟨anchor, parts.reverse⟩ t' := by
  induction parts generalizing room t' with
  | nil => exact extends_of_ensureOne h
  | cons part above ih =>
    rw [ensureParts] at h
    split at h
    · cases h
    · split at h
      · -- What is above is made first, and then the directory itself in what that leaves.
        obtain ⟨made, hmade, hlast⟩ := except_bind_eq_ok_iff.mp h
        exact (ih hmade).trans (reverse_prefix_reverse_cons part above) (extends_of_ensureOne hlast)
      · exact extends_of_ensureOne h

/-- Making a directory with all that leads to it. -/
theorem extends_of_ensureDirectory {room : Nat} (h : t.ensureDirectory room p = .ok t') :
    Extends t p t' := by
  have hparts := extends_of_ensureParts h
  rwa [List.reverse_reverse] at hparts

/-- Where it fails, what has been made are such directories too. -/
theorem extends_residueParts (t : FileTree) (anchor : String) (room : Nat) (parts : List String) :
    Extends t ⟨anchor, parts.reverse⟩ (t.residueParts anchor room parts) := by
  induction parts generalizing room with
  | nil => exact .refl t _
  | cons part above ih =>
    -- What has been made on the way to the directory above is on the way to this one.
    have hwider : ∀ {t'}, Extends t ⟨anchor, above.reverse⟩ t' →
        Extends t ⟨anchor, (part :: above).reverse⟩ t' :=
      fun h => h.trans (reverse_prefix_reverse_cons part above) (.refl _ _)
    rw [residueParts]
    split
    · exact .refl t _
    · split
      · split
        · rename_i made hmade
          exact hwider (extends_of_ensureParts hmade)
        · exact .refl t _
        · exact hwider (ih _)
      · exact .refl t _

/-- However much room there was. -/
theorem extends_residue (t : FileTree) (room : Nat) (p : Path) :
    Extends t p (t.residue room p) := by
  have hparts := t.extends_residueParts p.anchor room p.parts.reverse
  rwa [List.reverse_reverse] at hparts

end FileTree

end EvmAssembler
