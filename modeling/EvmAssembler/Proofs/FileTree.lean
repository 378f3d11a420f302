import EvmAssembler.FileTree
import EvmAssembler.Proofs.Result
import Mathlib.Data.String.Basic

/-!
# `EvmAssembler.Proofs.FileTree`: what is found can be read

A source is looked up twice. That it is a file is checked on the text as it was given, component
by component, and then it is read by its path in normal form. `FileTree.exists_read_of_isFile` says
that the two do not fall apart: the normal form leaves out only components that lead nowhere
(`FileTree.follow_filter`), and its text is what is left of the given one
(`Path.text_ofString_sublist`), so it holds no null character and is not too long.

The name of a file in the working directory (`FileTree.IsFileName`) leads to that file in every
tree, and there is nothing to be made above it.
-/

set_option autoImplicit false

namespace EvmAssembler

/-! ### Pieces between slashes -/

/-- The pieces are those of the library's splitting. -/
theorem splitSlashes_eq_splitOn (cs : List Char) : splitSlashes cs = cs.splitOn '/' := by
  induction cs with
  | nil => rfl
  | cons c cs ih =>
    rw [splitSlashes, List.splitOn_cons_eq_if_modifyHead, ih]
    by_cases hc : c = '/'
    · simp [hc]
    · obtain ⟨piece, pieces, hpieces⟩ := List.exists_cons_of_ne_nil (List.splitOn_ne_nil '/' cs)
      simp [hc, hpieces]

/-- The pieces with slashes between them are the text. -/
theorem intercalate_splitSlashes (cs : List Char) : ['/'].intercalate (splitSlashes cs) = cs := by
  rw [splitSlashes_eq_splitOn, List.intercalate_splitOn]

/-- A text without slashes is a piece of its own. -/
theorem splitSlashes_eq_singleton {cs : List Char} (h : '/' ∉ cs) : splitSlashes cs = [cs] := by
  induction cs with
  | nil => rfl
  | cons c cs ih =>
    obtain ⟨hc, hcs⟩ := not_or.mp (List.mem_cons.not.mp h)
    rw [splitSlashes, if_neg (Ne.symm hc), ih hcs]

/-- No piece has a slash in it. -/
theorem not_mem_of_mem_splitSlashes {cs piece : List Char} (h : piece ∈ splitSlashes cs) :
    '/' ∉ piece := by
  induction cs generalizing piece with
  | nil =>
    obtain rfl := List.mem_singleton.mp h
    simp
  | cons c cs ih =>
    rw [splitSlashes_eq_splitOn, List.splitOn_cons_eq_if_modifyHead,
      ← splitSlashes_eq_splitOn] at h
    by_cases hc : c = '/'
    · rw [if_pos (beq_iff_eq.mpr hc)] at h
      rcases List.mem_cons.mp h with rfl | h
      · simp
      · exact ih h
    · rw [if_neg (by simpa using hc)] at h
      cases hpieces : splitSlashes cs with
      | nil => simp [hpieces] at h
      | cons first pieces =>
        rw [hpieces, List.modifyHead_cons] at h
        rcases List.mem_cons.mp h with rfl | h
        · have hfirst := @ih first (by simp [hpieces])
          simp [Ne.symm hc, hfirst]
        · exact ih (by simp [hpieces, h])

/-- Leaving pieces out leaves out their characters and some of the slashes. -/
theorem intercalate_filter_sublist (keep : List Char → Bool) (pieces : List (List Char)) :
    (['/'].intercalate (pieces.filter keep)).Sublist (['/'].intercalate pieces) := by
  induction pieces with
  | nil => simp
  | cons piece pieces ih =>
    have hall : (['/'].intercalate pieces).Sublist (['/'].intercalate (piece :: pieces)) := by
      cases pieces with
      | nil => simp
      | cons next pieces =>
        rw [List.intercalate_cons_cons]
        exact List.sublist_append_right _ _
    by_cases hkeep : keep piece = true
    · rw [List.filter_cons_of_pos hkeep]
      -- Where nothing else is kept, the slash behind the piece goes too.
      by_cases hnil : pieces.filter keep = []
      · rw [hnil, List.intercalate_singleton]
        cases pieces with
        | nil => simp
        | cons next pieces =>
          rw [List.intercalate_cons_cons, List.append_assoc]
          exact List.sublist_append_left _ _
      · have hne : pieces ≠ [] := by
          rintro rfl
          exact hnil rfl
        rw [List.intercalate_cons_of_ne_nil hnil, List.intercalate_cons_of_ne_nil hne]
        exact ih.append_left _
    · rw [List.filter_cons_of_neg hkeep]
      exact ih.trans hall

/-! ### Normal forms -/

namespace Path

/-- A piece that stays in the normal form. -/
def keeps (piece : List Char) : Bool :=
  piece ≠ [] ∧ piece ≠ ['.']

/-- The components of a path are the pieces that are kept. -/
theorem parts_ofString (text : String) :
    (ofString text).parts = ((splitSlashes text.toList).filter keeps).map String.ofList := rfl

/-- Its components are those of the given text that are neither empty nor a single dot. -/
theorem parts_eq_filter (text : String) :
    (ofString text).parts = ((splitSlashes text.toList).map String.ofList).filter
      fun part => part ≠ "" ∧ part ≠ "." := by
  rw [List.filter_map, parts_ofString]
  congr 1
  refine List.filter_congr fun piece _ => ?_
  have hdot : String.ofList piece = String.ofList ['.'] ↔ piece = ['.'] := String.ofList_inj
  simp [keeps, hdot]

/-- The characters of a path's text, unless the path has neither anchor nor components. -/
theorem toList_text {p : Path} (h : ¬(p.anchor = "" ∧ p.parts = [])) :
    p.text.toList = p.anchor.toList ++ ['/'].intercalate (p.parts.map String.toList) := by
  rw [text, if_neg h, String.toList_append, String.toList_intercalate]
  rfl

/-- The text of a normal form is what is left of the text that was given. -/
theorem text_ofString_sublist {given : String}
    (h : ¬((ofString given).anchor = "" ∧ (ofString given).parts = [])) :
    (ofString given).text.toList.Sublist given.toList := by
  have hpieces : ∀ cs : List Char,
      (['/'].intercalate ((splitSlashes cs).filter keeps)).Sublist cs := by
    intro cs
    have hsub := intercalate_filter_sublist keeps (splitSlashes cs)
    rwa [intercalate_splitSlashes] at hsub
  have hslash : ∀ cs : List Char,
      (splitSlashes ('/' :: cs)).filter keeps = (splitSlashes cs).filter keeps := fun _ => rfl
  have hparts : (ofString given).parts.map String.toList =
      (splitSlashes given.toList).filter keeps := by
    rw [parts_ofString, List.map_map]
    exact (List.map_congr_left fun piece _ => String.toList_ofList).trans (List.map_id _)
  rw [toList_text h, hparts]
  show (String.toList (anchorOf given.toList) ++ _).Sublist _
  generalize given.toList = cs
  -- Each slash of the anchor stands in front of a piece that is left out.
  rw [anchorOf.eq_def]
  split
  · rename_i rest
    rw [hslash]
    exact (hpieces ('/' :: '/' :: rest)).cons_cons _
  · rename_i rest _
    rw [hslash, hslash]
    exact ((hpieces rest).cons_cons _).cons_cons _
  · rename_i rest _ _
    rw [hslash]
    exact (hpieces rest).cons_cons _
  · exact hpieces cs

/-- A text is anchored when it starts with a slash, and so does the anchor. -/
theorem anchorOf_eq_empty_iff {cs : List Char} : anchorOf cs = "" ↔ cs.head? ≠ some '/' := by
  cases cs with
  | nil => simp [anchorOf]
  | cons c cs =>
    by_cases hc : c = '/'
    · subst hc
      rw [anchorOf.eq_def]
      split <;> simp_all
    · simp [anchorOf, hc]

/-- Where there is an anchor, it starts with a slash. -/
theorem head?_anchorOf {cs : List Char} (h : anchorOf cs ≠ "") :
    (anchorOf cs).toList.head? = some '/' := by
  rw [anchorOf.eq_def] at h ⊢
  split <;> simp_all

/-- The normal form is anchored when the given text is. -/
theorem anchorOf_text {given : String}
    (h : ¬((ofString given).anchor = "" ∧ (ofString given).parts = [])) :
    anchorOf (ofString given).text.toList = "" ↔ anchorOf given.toList = "" := by
  have hanchor : (ofString given).anchor = anchorOf given.toList := rfl
  rw [anchorOf_eq_empty_iff, toList_text h]
  by_cases hempty : anchorOf given.toList = ""
  · -- The first component is not empty and has no slash in it.
    rw [not_and, hanchor] at h
    have hparts := h hempty
    rw [parts_ofString] at hparts ⊢
    cases hkept : (splitSlashes given.toList).filter keeps with
    | nil => simp [hkept] at hparts
    | cons piece pieces =>
      have hmem : piece ∈ (splitSlashes given.toList).filter keeps := by simp [hkept]
      obtain ⟨hpiece, hkeeps⟩ := List.mem_filter.mp hmem
      have hslash := not_mem_of_mem_splitSlashes hpiece
      cases piece with
      | nil => simp [keeps] at hkeeps
      | cons c piece =>
        have hc : c ≠ '/' := fun hc => hslash (by simp [hc])
        simp [hanchor, hempty, hc]
  · have hhead := head?_anchorOf hempty
    simp [hanchor, hempty, List.head?_append, hhead]

end Path

/-! ### Following a path -/

namespace FileTree

variable {t : FileTree}

/-- An empty component and a single dot lead nowhere, so they can be left out. -/
theorem follow_filter {l m : Location} {parts : List String} (h : t.follow l parts = .ok m) :
    t.follow l (parts.filter fun part => part ≠ "" ∧ part ≠ ".") = .ok m := by
  induction parts generalizing l with
  | nil => exact h
  | cons part parts ih =>
    rw [follow] at h
    split at h
    · rename_i hdirectory
      split at h
      · cases h
      · rename_i hlength
        by_cases hpart : part = "" ∨ part = "."
        · rw [step, if_pos hpart] at h
          rw [List.filter_cons_of_neg (by simpa [not_and_or, imp_iff_not_or] using hpart)]
          exact ih h
        · rw [List.filter_cons_of_pos (by simpa [not_or] using hpart), follow, hdirectory]
          dsimp only
          rw [if_neg hlength]
          exact ih h
    · cases h
    · cases h

/-- A text is followed if it holds no null character and is not too long. -/
theorem followText_eq (t : FileTree) (text : String) (parts : List String) :
    t.followText text parts =
      if '\x00' ∈ text.toList then .error .nullCharacter
      else if maxPathBytes < text.utf8ByteSize then .error .tooLong
      else t.follow (if Path.anchorOf text.toList = "" then [] else ["/"]) parts := by
  simp [followText, String.contains_char_eq]

/-- A path that can be looked up at all is followed from the root if it has an anchor, and from the
working directory otherwise. -/
theorem followText_of_short (t : FileTree) {text : String} (parts : List String)
    (hnull : '\x00' ∉ text.toList) (hlength : text.utf8ByteSize ≤ maxPathBytes) :
    t.followText text parts =
      t.follow (if Path.anchorOf text.toList = "" then [] else ["/"]) parts := by
  rw [followText_eq, if_neg hnull, if_neg (Nat.not_lt.mpr hlength)]

/-- The normal form leads where the given text does, unless that is the working directory. -/
theorem locate_of_followText {given : String} {l : Location} (hl : l ≠ [])
    (h : t.followText given ((splitSlashes given.toList).map String.ofList) = .ok l) :
    t.locate (.ofString given) = .ok l := by
  rw [followText_eq] at h
  split at h
  · cases h
  · rename_i hnull
    split at h
    · cases h
    · rename_i hlength
      have hfollow := follow_filter h
      rw [← Path.parts_eq_filter] at hfollow
      have hpath : ¬((Path.ofString given).anchor = "" ∧ (Path.ofString given).parts = []) := by
        rintro ⟨hanchor, hnil⟩
        have hempty : Path.anchorOf given.toList = "" := hanchor
        rw [hnil, if_pos hempty, follow] at hfollow
        exact hl (Except.ok.inj hfollow).symm
      -- What is left of a text is as harmless as the text.
      have hsub := Path.text_ofString_sublist hpath
      have hnull' : '\x00' ∉ (Path.ofString given).text.toList :=
        fun hmem => hnull (hsub.subset hmem)
      have hle := String.utf8Len_le_of_sublist hsub
      rw [← String.utf8ByteSize_ofList, ← String.utf8ByteSize_ofList, String.ofList_toList,
        String.ofList_toList] at hle
      rw [locate, followText_of_short _ _ hnull' (by omega)]
      simp only [Path.anchorOf_text hpath]
      exact hfollow

/-- A source that is found can be read. -/
theorem exists_read_of_isFile {given : String} (h : t.isFile given = true) :
    ∃ content, t.read (.ofString given) = .ok content := by
  rw [isFile] at h
  split at h
  · rename_i l hfollow
    split at h
    · rename_i content hnode
      have hl : l ≠ [] := by
        rintro rfl
        simp [node?] at hnode
      exact ⟨content, by rw [read, locate_of_followText hl hfollow, except_bind_ok, hnode]⟩
    · cases h
  · cases h

/-! ### Names in the working directory -/

/-- The text is a name that can be looked up in a directory, and no name for directories. -/
def IsFileName (name : String) : Prop :=
  name ≠ "" ∧ name ≠ "." ∧ name ≠ ".." ∧ '/' ∉ name.toList ∧ '\x00' ∉ name.toList ∧
    name.utf8ByteSize ≤ maxPartBytes

instance (name : String) : Decidable (IsFileName name) :=
  inferInstanceAs (Decidable (_ ∧ _))

/-- The working directory is there. -/
theorem node?_nil (t : FileTree) : t.node? [] = some .directory := rfl

/-- The empty path leads to the working directory. -/
theorem locate_nil (t : FileTree) : t.locate ⟨"", []⟩ = .ok [] := by
  rw [locate, followText_of_short _ _ (by decide +kernel) (by decide +kernel)]
  rfl

/-- And so nothing is made for it. -/
theorem ensureDirectory_nil (t : FileTree) (room : Nat) :
    t.ensureDirectory room ⟨"", []⟩ = .ok t := by
  show t.ensureOne ⟨"", []⟩ = _
  rw [ensureOne, makeDirectory, isDirectory, t.locate_nil, except_bind_ok]
  rfl

namespace IsFileName

variable {name : String}

/-- The name has no slash, so it has no anchor. -/
theorem anchorOf_eq (h : IsFileName name) : Path.anchorOf name.toList = "" := by
  obtain ⟨-, -, -, hslash, -⟩ := h
  rw [Path.anchorOf_eq_empty_iff]
  intro hhead
  exact hslash (List.mem_of_mem_head? hhead)

/-- A name is the path of one component. -/
theorem ofString_eq (h : IsFileName name) : Path.ofString name = ⟨"", [name]⟩ := by
  have hanchor := h.anchorOf_eq
  obtain ⟨hempty, hdot, -, hslash, -⟩ := h
  have hdot' : name.toList ≠ ['.'] := fun heq => hdot (String.toList_inj.mp heq)
  have hempty' : name.toList ≠ [] := fun heq => hempty (String.toList_inj.mp heq)
  rw [Path.ofString, hanchor, splitSlashes_eq_singleton hslash]
  simp [hempty', hdot']

/-- It leads to what has the name. -/
theorem followText_eq (h : IsFileName name) (t : FileTree) :
    t.followText name [name] = .ok [name] := by
  have hanchor := h.anchorOf_eq
  obtain ⟨hempty, hdot, hdots, -, hnull, hsize⟩ := h
  rw [followText_of_short _ _ hnull (Nat.le_trans hsize (by decide)), if_pos hanchor, follow,
    t.node?_nil]
  dsimp only
  rw [if_neg (Nat.not_lt.mpr hsize), follow, step, if_neg (not_or.mpr ⟨hempty, hdot⟩), if_neg hdots]
  rfl

/-- Its path leads to the node of the name in the working directory, which need not be there. -/
theorem locate_eq (h : IsFileName name) (t : FileTree) :
    t.locate (.ofString name) = .ok [name] := by
  have htext : Path.text ⟨"", [name]⟩ = name := by simp [Path.text]
  rw [locate, h.ofString_eq, htext, h.followText_eq]

/-- A file of the name is found to be one. -/
theorem isFile_eq (h : IsFileName name) {t : FileTree} {content : ByteArray}
    (hnode : t.node? [name] = some (.file content)) : t.isFile name = true := by
  have hslash : '/' ∉ name.toList := h.2.2.2.1
  rw [isFile, splitSlashes_eq_singleton hslash, List.map_singleton, String.ofList_toList,
    h.followText_eq]
  dsimp only
  rw [hnode]

/-- Reading the name reads that file. -/
theorem read_eq (h : IsFileName name) {t : FileTree} {content : ByteArray}
    (hnode : t.node? [name] = some (.file content)) : t.read (.ofString name) = .ok content := by
  rw [read, h.locate_eq, except_bind_ok, hnode]

/-- A file of the name can be written unless there is a directory of the name. -/
theorem write_eq (h : IsFileName name) {t : FileTree} (hnode : t.node? [name] ≠ some .directory)
    (content : ByteArray) :
    t.write (.ofString name) content = .ok (t.put [name] (.file content)) := by
  rw [write, h.locate_eq, except_bind_ok]
  split
  · rename_i hdirectory
    exact absurd hdirectory hnode
  · rfl

/-- Above it there is the working directory. -/
theorem ensureDirectory_parent (h : IsFileName name) (t : FileTree) (room : Nat) :
    t.ensureDirectory room (Path.ofString name).parent = .ok t := by
  rw [h.ofString_eq]
  exact t.ensureDirectory_nil room

end IsFileName

end FileTree

end EvmAssembler
