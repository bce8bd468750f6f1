import RequestLang.Proofs.Text.Place
import RequestLang.Proofs.Text.Utf8
import RequestLang.Url.Percent

/-! Pairs of names and values come back from the text that writes them, whatever characters they hold. The marks
between them stay outside the pieces, since a piece keeps no mark as it is. -/
namespace RequestLang

namespace Text

/-- Cutting a text at a mark goes on as cutting its characters does. Here `l` is what is cut off already, and `m`
the piece that is being read. -/
theorem splitOnAux_singleton (mark : Char) (l m r : List Char) (pieces : List String) :
    String.splitOnAux (.ofList (l ++ m ++ r)) (.singleton mark) ⟨String.utf8Len l⟩ ⟨String.utf8Len (l ++ m)⟩ 0 pieces =
      pieces.reverse ++ (List.splitOnPPrepend (· == mark) r m.reverse).map String.ofList := by
  have hpiece (l m r : List Char) : String.Pos.Raw.extract (.ofList (l ++ m ++ r)) ⟨String.utf8Len l⟩
      ⟨String.utf8Len (l ++ m)⟩ = .ofList m := by
    rw [String.utf8Len_append]
    exact String.extract_of_valid l m r
  induction r generalizing l m pieces with
  | nil =>
    rw [String.splitOnAux, if_pos ((String.atEnd_of_valid (l ++ m) []).mpr rfl), hpiece]
    simp
  | cons c r ih =>
    have hread : ¬String.Pos.Raw.atEnd (.ofList (l ++ m ++ c :: r)) ⟨String.utf8Len (l ++ m)⟩ := fun h =>
      List.cons_ne_nil c r ((String.atEnd_of_valid (l ++ m) (c :: r)).mp h)
    have hget : String.Pos.Raw.get (.singleton mark) 0 = mark := String.get_of_valid [] [mark]
    have hshift : String.utf8Len (l ++ m) + c.utf8Size = String.utf8Len (l ++ (m ++ [c])) := by
      simp only [String.utf8Len_append, String.utf8Len_cons, String.utf8Len_nil, Nat.zero_add, Nat.add_assoc]
    have htext : l ++ m ++ c :: r = l ++ (m ++ [c]) ++ r := by simp
    rw [String.splitOnAux, if_neg hread, String.get_of_valid (l ++ m) (c :: r), List.headD_cons, hget,
      List.splitOnPPrepend_cons_eq_if]
    by_cases hc : c = mark
    · subst hc
      have hnext : String.Pos.Raw.next (.singleton c) 0 = ⟨c.utf8Size⟩ := by
        simpa using String.next_of_valid [] c []
      have hend : String.Pos.Raw.atEnd (.singleton c) ⟨c.utf8Size⟩ := by
        simpa using String.atEnd_of_valid [c] []
      have hback : (⟨String.utf8Len (l ++ m) + c.utf8Size⟩ : String.Pos.Raw).unoffsetBy ⟨c.utf8Size⟩ =
          ⟨String.utf8Len (l ++ m)⟩ := by
        simp [String.Pos.Raw.unoffsetBy]
      have hrest := ih (l ++ (m ++ [c])) [] (.ofList m :: pieces)
      rw [List.append_nil, ← htext, List.reverse_cons, List.append_assoc pieces.reverse] at hrest
      rw [if_pos (beq_self_eq_true c), if_pos (beq_self_eq_true c)]
      dsimp only
      rw [String.next_of_valid (l ++ m) c r, hnext, if_pos hend, hback, hpiece, hshift, hrest, List.reverse_reverse]
      rfl
    · have hmark : ¬(c == mark) = true := by simpa using hc
      have hstay : (⟨String.utf8Len (l ++ m)⟩ : String.Pos.Raw).unoffsetBy 0 = ⟨String.utf8Len (l ++ m)⟩ := rfl
      have hrest := ih l (m ++ [c]) pieces
      rw [← htext, List.reverse_append] at hrest
      rw [if_neg hmark, if_neg hmark, hstay, String.next_of_valid (l ++ m) c r, hshift, hrest]
      rfl

theorem splitOn_singleton (mark : Char) (s : String) :
    s.splitOn (String.singleton mark) = (s.toList.splitOn mark).map String.ofList := by
  have h := splitOnAux_singleton mark [] [] s.toList []
  have hne : (String.singleton mark == "") = false := by simp
  rw [List.append_nil, List.nil_append, String.ofList_toList] at h
  rw [String.splitOn, hne]
  exact h

theorem splitOnce?_eq_none {mark : Char} {cs : List Char} (h : mark ∉ cs) : splitOnce? mark cs = none := by
  have hempty : cs.dropWhile (· != mark) = [] :=
    List.dropWhile_eq_nil_iff.mpr fun c hc => bne_iff_ne.mpr fun heq => h (heq ▸ hc)
  rw [splitOnce?, hempty]

theorem splitOnce?_append {mark : Char} {cs : List Char} (h : mark ∉ cs) (ds : List Char) :
    splitOnce? mark (cs ++ mark :: ds) = some (cs, ds) := by
  have hcs : ∀ c ∈ cs, (c != mark) = true := fun c hc => bne_iff_ne.mpr fun heq => h (heq ▸ hc)
  rw [splitOnce?, List.dropWhile_append_of_pos hcs, List.takeWhile_append_of_pos hcs]
  simp

end Text

namespace Percent

/-- The byte of a digit. -/
def hex (n : Nat) : UInt8 := .ofNat (digit n).toNat

theorem ofChar_digit : ∀ n < 16, Bytes.ofChar (digit n) = [hex n] := by decide

theorem digitValue?_hex : ∀ n < 16, digitValue? (Char.ofNat (hex n).toNat) = some n := by decide

theorem decode_cons {b : UInt8} (h : b ≠ 0x25) (bs : Bytes) : decode (b :: bs) = b :: decode bs := by
  rw [decode.eq_2]
  exact fun _ _ _ hb => absurd hb h

theorem encode_cons (keep : Char → Bool) (b : UInt8) (bs : Bytes) : encode keep (b :: bs) =
    (if b < 0x80 && keep (Char.ofNat b.toNat) then [Char.ofNat b.toNat] else ofByte b) ++ encode keep bs :=
  List.flatMap_cons

theorem ofChars_ofByte (b : UInt8) :
    Bytes.ofChars (ofByte b) = [0x25, hex (b.toNat / 16), hex (b.toNat % 16)] := by
  have hb := b.toNat_lt
  simp only [ofByte, Bytes.ofChars, List.flatMap_cons, List.flatMap_nil, ofChar_digit _ (show b.toNat / 16 < 16 by omega),
    ofChar_digit _ (show b.toNat % 16 < 16 by omega)]
  rfl

theorem byte?_hex (b : UInt8) : byte? (hex (b.toNat / 16)) (hex (b.toNat % 16)) = some b := by
  have hb := b.toNat_lt
  rw [byte?, digitValue?_hex _ (by omega), digitValue?_hex _ (by omega)]
  exact congrArg some ((congrArg UInt8.ofNat (Nat.div_add_mod _ _)).trans UInt8.ofNat_toNat)

theorem decode_ofByte (b : UInt8) (rest : Bytes) : decode (Bytes.ofChars (ofByte b) ++ rest) = b :: decode rest := by
  rw [ofChars_ofByte]
  simp [decode, byte?_hex]

end Percent

namespace Form

/-- What is written for a byte of a name or a value. -/
def ofByte (b : UInt8) : List Char := if b = 0x20 then ['+'] else Percent.encode keeps [b]

/-- A plus sign is read as a blank. -/
def unplus (c : Char) : Char := if c = '+' then ' ' else c

theorem keeps_digit : ∀ n < 16, keeps (Percent.digit n) := by decide

/-- The characters of a piece: those that are kept, and two marks. -/
theorem mem_encodePiece {s : String} {c : Char} (h : c ∈ encodePiece s) : keeps c ∨ c = '+' ∨ c = '%' := by
  obtain ⟨b, -, hb⟩ := List.mem_flatMap.mp h
  have hbyte := b.toNat_lt
  split at hb
  · exact .inr (.inl (List.mem_singleton.mp hb))
  · rw [Percent.encode, List.flatMap_singleton] at hb
    dsimp only at hb
    split at hb
    · rename_i hkept
      rw [List.mem_singleton.mp hb]
      exact .inl (Bool.and_eq_true_iff.mp hkept).2
    · simp only [Percent.ofByte, List.mem_cons, List.not_mem_nil, or_false] at hb
      rcases hb with rfl | rfl | rfl
      · exact .inr (.inr rfl)
      · exact .inl (keeps_digit _ (by omega))
      · exact .inl (keeps_digit _ (by omega))

theorem not_mem_encodePiece {mark : Char} (hmark : mark ∈ ['&', '=', '#', '@']) (s : String) : mark ∉ encodePiece s := by
  intro h
  fin_cases hmark <;> exact absurd (mem_encodePiece h) (by decide)

theorem decode_ofByte (b : UInt8) (rest : Bytes) :
    Percent.decode (Bytes.ofChars ((ofByte b).map unplus) ++ rest) = b :: Percent.decode rest := by
  have hb := b.toNat_lt
  rw [ofByte]
  split
  · rename_i hblank
    subst hblank
    exact Percent.decode_cons (by decide) rest
  rw [Percent.encode, List.flatMap_singleton]
  dsimp only
  split
  · rename_i hkept
    obtain ⟨hascii, hkept⟩ := Bool.and_eq_true_iff.mp hkept
    have hplus : Char.ofNat b.toNat ≠ '+' := fun h => absurd (h ▸ hkept) (by decide)
    have hpercent : b ≠ 0x25 := by
      rintro rfl
      exact absurd hkept (by decide)
    have hbyte := Bytes.ofChar_byte (of_decide_eq_true hascii)
    simp only [List.map_cons, List.map_nil, unplus, if_neg hplus, Bytes.ofChars, List.flatMap_singleton, hbyte]
    exact Percent.decode_cons hpercent rest
  · have hplain : (Percent.ofByte b).map unplus = Percent.ofByte b := by
      have hdigit : ∀ n < 16, unplus (Percent.digit n) = Percent.digit n := by decide
      simp only [Percent.ofByte, List.map_cons, List.map_nil, hdigit _ (show b.toNat / 16 < 16 by omega),
        hdigit _ (show b.toNat % 16 < 16 by omega)]
      rfl
    rw [hplain, Percent.decode_ofByte]

theorem decodePiece_encodePiece (s : String) : decodePiece (encodePiece s) = s := by
  have hbytes (bs : Bytes) : Percent.decode (Bytes.ofChars ((bs.flatMap ofByte).map unplus)) = bs := by
    induction bs with
    | nil => rfl
    | cons b bs ih =>
      rw [List.flatMap_cons, List.map_append, Bytes.ofChars, List.flatMap_append]
      exact (decode_ofByte b _).trans (congrArg _ ih)
  exact (congrArg Bytes.lossyText (hbytes (Bytes.ofString s))).trans (Bytes.lossyText_ofString s)

theorem decodePair_encodePair (p : String × String) : decodePair (encodePair p) = p := by
  rw [decodePair, encodePair, Text.splitOnce?_append (not_mem_encodePiece (by decide) p.1)]
  simp [decodePiece_encodePiece]

theorem decode_eq (s : String) : decode s = ((s.toList.splitOn '&').filter (!·.isEmpty)).map decodePair := by
  have hsplit : s.splitOn "&" = (s.toList.splitOn '&').map String.ofList := Text.splitOn_singleton '&' s
  rw [decode, hsplit, List.map_map]
  simp [Function.comp_def]

/-- Pairs before and after a mark. -/
theorem decode_append (cs ds : List Char) :
    decode (.ofList (cs ++ '&' :: ds)) = decode (.ofList cs) ++ decode (.ofList ds) := by
  simp only [decode_eq, String.toList_ofList, List.splitOn_append_cons_self, List.filter_append, List.map_append]

theorem not_mem_encodePair {mark : Char} (hmark : mark ∈ ['&', '#', '@']) (p : String × String) : mark ∉ encodePair p := by
  have hpiece : mark ∈ ['&', '=', '#', '@'] := by
    simp only [List.mem_cons, List.not_mem_nil, or_false] at hmark ⊢
    exact hmark.imp id .inr
  have hequals : mark ≠ '=' := by
    rintro rfl
    exact absurd hmark (by decide)
  simp [encodePair, not_mem_encodePiece hpiece, hequals]

theorem not_mem_encode {mark : Char} (hmark : mark ∈ ['#', '@']) (pairs : List (String × String)) :
    mark ∉ (encode pairs).toList := by
  have hand : mark ≠ '&' := by
    rintro rfl
    exact absurd hmark (by decide)
  rw [encode, String.toList_ofList]
  refine Text.not_mem_intercalate (by simpa using hand) fun piece hpiece => ?_
  obtain ⟨p, -, rfl⟩ := List.mem_map.mp hpiece
  exact not_mem_encodePair (List.mem_cons_of_mem '&' hmark) p

/-- Pairs are read as they were written. -/
theorem decode_encode (pairs : List (String × String)) : decode (encode pairs) = pairs := by
  cases hpairs : pairs with
  | nil => simp [decode_eq, encode]
  | cons =>
    rw [← hpairs]
    have hfree : ∀ piece ∈ pairs.map encodePair, '&' ∉ piece := by
      intro piece hpiece
      obtain ⟨p, -, rfl⟩ := List.mem_map.mp hpiece
      exact not_mem_encodePair (by decide) p
    have hfull : (pairs.map encodePair).filter (!·.isEmpty) = pairs.map encodePair := by
      refine List.filter_eq_self.mpr fun piece hpiece => ?_
      obtain ⟨p, -, rfl⟩ := List.mem_map.mp hpiece
      simp [encodePair]
    rw [decode_eq, encode, String.toList_ofList, List.splitOn_intercalate '&' hfree (by simp [hpairs]), hfull,
      List.map_map]
    simp [Function.comp_def, decodePair_encodePair]

end Form
end RequestLang
