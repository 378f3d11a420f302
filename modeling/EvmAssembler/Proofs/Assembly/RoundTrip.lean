import EvmAssembler.Proofs.Assembly.Agreement
import EvmAssembler.Proofs.Source.Listing

/-!
# `EvmAssembler.Proofs.Assembly.RoundTrip`: listings assemble to what they list

A program without annotations that can be encoded has a listing, and whatever listing of it is
assembled, the program comes back and its bytes with it. Letter case, margins, blank lines and
comments make no difference.

A listing is read as actions that issue the program one for one. None of them is refused and
none defines a label, so the script is clean and there is nothing to settle: each command is
kept as it is. `spelling_iff_mnemonic` and `spelling_push_iff` say what the words of a listing
have to do with the mnemonics that instructions are shown by.
-/

set_option autoImplicit false

namespace EvmAssembler

open Source (Action Listing Spelling IsMargin IsTrailer SameLetters isMargin_nil)

/-! ### Words and mnemonics -/

namespace Source

/-- An instruction of one byte is written as its mnemonic, unless the byte stands for itself. -/
theorem spelling_iff_mnemonic {i : Instruction} (hi : i.Encodable) (hbyte : i.extent = 1)
    (hknown : ∀ b, i ≠ .unknown b) {word : List Char} :
    Spelling i word ↔ ∃ name, i.mnemonic = .ok name ∧ SameLetters word name.toList := by
  constructor
  · intro h
    cases h with
    | fixed hword => exact ⟨_, rfl, hword⟩
    | dup _ h2 hword => exact ⟨_, Layout.indexed_int "DUP" h2, hword⟩
    | swap _ h2 hword => exact ⟨_, Layout.indexed_int "SWAP" h2, hword⟩
    | push h1 _ _ _ _ _ =>
      -- A push has data, so it takes two bytes at least.
      rw [Instruction.extent] at hbyte
      omega
    | byte _ _ _ => exact absurd rfl (hknown _)
  · rintro ⟨name, hname, hword⟩
    obtain ⟨bytes, hbytes⟩ := hi
    cases Instruction.Encodes.of_encode hbytes with
    | assertion _ => cases hbyte
    | unknown b => exact absurd rfl (hknown b)
    | fixed op =>
      obtain rfl := Except.ok.inj hname
      exact .fixed hword
    | dup h1 h2 =>
      obtain rfl := Except.ok.inj ((Layout.indexed_int "DUP" h2).symm.trans hname)
      exact .dup h1 h2 hword
    | swap h1 h2 =>
      obtain rfl := Except.ok.inj ((Layout.indexed_int "SWAP" h2).symm.trans hname)
      exact .swap h1 h2 hword
    | push h1 _ =>
      rw [Instruction.extent] at hbyte
      omega

/-- A push is written as its mnemonic, blanks, and its bytes in hexadecimal. -/
theorem spelling_push_iff {data : List UInt8} (hi : (Instruction.push data).Encodable)
    {word : List Char} :
    Spelling (.push data) word ↔ ∃ name keyword space literal,
      (Instruction.push data).mnemonic = .ok name ∧ SameLetters keyword name.toList ∧
        IsMargin space ∧ space ≠ [] ∧
        SameLetters literal ("0x" ++ Text.bytesHex data).toList ∧
        word = keyword ++ space ++ literal := by
  constructor
  · intro h
    cases h with
    | push _ _ hword hspace hne hliteral =>
      exact ⟨_, _, _, _, rfl, hword, hspace, hne, hliteral, rfl⟩
  · rintro ⟨name, keyword, space, literal, hname, hword, hspace, hne, hliteral, rfl⟩
    obtain ⟨bytes, hbytes⟩ := hi
    obtain rfl := Except.ok.inj hname
    cases Instruction.Encodes.of_encode hbytes with
    | push h1 h2 => exact .push h1 h2 hword hspace hne hliteral

/-! ### Every program has a listing -/

/-- Whatever has bytes and is no annotation can be written. -/
theorem exists_spelling {i : Instruction} (hi : i.Encodable) (hplain : i.isAssertion = false) :
    ∃ word, Spelling i word := by
  obtain ⟨bytes, hbytes⟩ := hi
  cases Instruction.Encodes.of_encode hbytes with
  | assertion _ => cases hplain
  | unknown b =>
    -- Three digits are within the limit for decimal literals.
    have hb : b.toNat < 10 ^ 3 := Nat.lt_trans b.toNat_lt (by decide)
    obtain ⟨-, -, hlength, -⟩ := decimal_digits (by decide) hb
    have hmost : Text.maxDecimalDigits = 4300 := rfl
    rw [String.length_toList] at hlength
    exact ⟨_, .byte rfl isMargin_nil (@IsByteLiteral.decimal b 0 (by omega))⟩
  | fixed op => exact ⟨_, .fixed rfl⟩
  | dup h1 h2 => exact ⟨_, .dup h1 h2 rfl⟩
  | swap h1 h2 => exact ⟨_, .swap h1 h2 rfl⟩
  | push h1 h2 =>
    have hspace : IsMargin [' '] := by
      intro c hc
      exact Or.inl (List.mem_singleton.mp hc)
    exact ⟨_, .push h1 h2 rfl hspace (List.cons_ne_nil ' ' []) rfl⟩

/-- A program of such instructions has a listing. -/
theorem exists_listing {p : Program} (hp : p.Encodable)
    (hplain : ∀ i ∈ p, i.isAssertion = false) : ∃ text, Listing p text := by
  induction p with
  | nil => exact ⟨[], .last (.margin isMargin_nil)⟩
  | cons i p ih =>
    obtain ⟨hi, hrest⟩ := Program.encodable_cons.mp hp
    obtain ⟨word, hword⟩ := exists_spelling hi (hplain i List.mem_cons_self)
    obtain ⟨text, htext⟩ := ih hrest fun j hj => hplain j (List.mem_cons_of_mem i hj)
    exact ⟨_, .line isMargin_nil hword (.margin isMargin_nil) htext⟩

end Source

/-! ### Scripts without labels -/

section
variable {actions : List Action} {p : Program}

/-- Actions that issue a program have its instructions placed. -/
theorem commands_of_issues (h : List.Forall₂ Action.Issues actions p) (space : String) :
    (inSpace space actions).commands = p.map Placement.instruction := by
  induction h with
  | nil => rfl
  | @cons a i actions p hissues _ ih =>
    show List.filterMap Scoped.command? (⟨space, a⟩ :: inSpace space actions) = _
    rw [List.filterMap_cons, hissues.command space]
    exact congrArg (Placement.instruction i :: ·) ih

/-- None of them defines a label, and none is refused. -/
theorem isClean_of_issues (h : List.Forall₂ Action.Issues actions p) (space : String) :
    (inSpace space actions).IsClean := by
  have hissues : ∀ s ∈ inSpace space actions, ∃ i, s.action.Issues i ∧ s.space = space := by
    intro s hs
    obtain ⟨a, ha, rfl⟩ := List.mem_map.mp hs
    obtain ⟨i, hi⟩ := exists_forall₂_iff.mp ⟨p, h⟩ a ha
    exact ⟨i, hi, rfl⟩
  refine Script.isClean_iff.mpr ⟨fun s hs => ?_, ?_⟩
  · obtain ⟨i, hi, -⟩ := hissues s hs
    exact hi.accepted
  · -- Every action has a command, and a definition would have none.
    have hnone : (inSpace space actions).labels = [] := by
      rw [List.eq_nil_iff_forall_not_mem]
      intro label hlabel
      obtain ⟨other, name, hmem, -⟩ := Script.mem_labels_iff.mp hlabel
      obtain ⟨i, hi, -⟩ := hissues _ hmem
      cases hi.command other
    rw [hnone]
    exact List.nodup_nil

end

/-! ### Assembling a listing -/

namespace Assembly

/-- A listing assembles to the program it lists. -/
theorem program_of_listing {p : Program} {text : List Char} (h : Listing p text)
    (module : String) : programOfText (String.ofList text) module = .ok p := by
  obtain ⟨actions, hactions, hissues⟩ := Source.actions_of_listing h
  have hscript : Script.ofUnits [⟨module, none, String.ofList text⟩] =
      .ok (inSpace module actions) := by
    show (Source.actions (String.ofList text).toList).bind _ = _
    rw [String.toList_ofList, hactions]
    exact congrArg Except.ok (List.append_nil _)
  -- There are only instructions among the commands, and each of them keeps itself.
  refine (program_eq_ok_iff hscript).mpr ⟨isClean_of_issues hissues module, ?_⟩
  rw [commands_of_issues hissues module, List.forall₂_map_left_iff]
  exact List.forall₂_same.mpr fun i _ => .instruction i

/-- Every program that can be encoded and has no annotations can be written down, and is what
any listing of it assembles to. -/
theorem program_round_trip {p : Program} (hp : p.Encodable)
    (hplain : ∀ i ∈ p, i.isAssertion = false) :
    (∃ text, Listing p text) ∧ ∀ text module, Listing p text →
      programOfText (String.ofList text) module = .ok p ∧
        ∃ bytes, p.code = .ok bytes ∧ code [⟨module, none, String.ofList text⟩] = .ok bytes := by
  refine ⟨Source.exists_listing hp hplain, fun text module h => ?_⟩
  have hprogram := program_of_listing h module
  obtain ⟨bytes, hbytes⟩ := Program.encodable_iff_exists_code.mp hp
  refine ⟨hprogram, bytes, hbytes, ?_⟩
  rw [code, show program _ = .ok p from hprogram]
  exact hbytes

/-- A push, an opcode whose mnemonic starts with another's, and a byte. -/
def sampler : Program :=
  [.push [0x0A, 0x0B], .ofOpcode .MSTORE8, .unknown 0xFE]

/-- They are listed in mixed case, with tabs, a blank line and comments. -/
def samplerListed : List Char :=
  "\tPush2 \t0X0a0B // two bytes\n\n // then\nmStore8//\n  .Byte 254\t".toList

/-- The text is a listing of the program, line by line. -/
theorem listing_sampler : Listing sampler samplerListed := by
  have hpush : Spelling (.push [0x0A, 0x0B]) ("Push2".toList ++ [' ', '\t'] ++ "0X0a0B".toList) :=
    .push (by decide) (by decide) (by decide) (by decide) (by decide) (by decide)
  have hstore : Spelling (.ofOpcode .MSTORE8) "mStore8".toList := .fixed (by decide)
  have hbyte : Spelling (.unknown 0xFE) (".Byte".toList ++ [' '] ++ "254".toList) :=
    .byte (by decide) (by decide) (@Source.IsByteLiteral.decimal 0xFE 0 (by decide))
  have hbytes : IsTrailer ([' '] ++ '/' :: '/' :: " two bytes".toList) :=
    .comment (by decide) (by decide)
  have hthen : IsTrailer ([' '] ++ '/' :: '/' :: " then".toList) :=
    .comment (by decide) (by decide)
  have hempty : IsTrailer ([] ++ '/' :: '/' :: []) := .comment isMargin_nil (by decide)
  have hlast : Listing [.unknown 0xFE] ([' ', ' '] ++ _ ++ ['\t']) :=
    .lastLine (by decide) hbyte (.margin (by decide))
  have hrest := Listing.empty (.margin isMargin_nil)
    (.empty hthen (.line isMargin_nil hstore hempty hlast))
  have htab : IsMargin ['\t'] := by decide
  exact .line htab hpush hbytes hrest

/-- So it assembles to the program, and to the bytes that the program has. -/
theorem program_round_trip_sampler :
    Listing sampler samplerListed ∧
      programOfText (String.ofList samplerListed) "main" = .ok sampler ∧
      code [⟨"main", none, String.ofList samplerListed⟩] = .ok [0x61, 0x0A, 0x0B, 0x53, 0xFE] := by
  have hcode : sampler.code = .ok [0x61, 0x0A, 0x0B, 0x53, 0xFE] := rfl
  have hencodable : sampler.Encodable := Program.encodable_iff_exists_code.mpr ⟨_, hcode⟩
  have hplain : ∀ i ∈ sampler, i.isAssertion = false := by
    simp [sampler, Instruction.ofOpcode, Instruction.isAssertion]
  obtain ⟨-, hall⟩ := program_round_trip hencodable hplain
  obtain ⟨hprogram, bytes, hbytes, hassembled⟩ := hall samplerListed "main" listing_sampler
  obtain rfl := Except.ok.inj (hcode.symm.trans hbytes)
  exact ⟨listing_sampler, hprogram, hassembled⟩

end Assembly

end EvmAssembler
