/-
# Lines of a file, as bytes and as text

The reader of files ends a line at a line feed and takes one carriage return before it away. Here its
lines are compared with the pieces of the file between the line feeds: a line is its piece, or its
piece without a carriage return at the end. Decoding does not mind the difference, because the last
byte of a text in UTF-8 is a carriage return only if its last character is one.
-/
import Mathlib.Data.List.Basic
import Mathlib.Data.List.Forall2
import LL1.Text.Lines

namespace LL1

/-! ## Pieces between line feeds -/

/-- The list without its last member if that is empty. -/
def dropEmptyLast (pieces : List (List UInt8)) : List (List UInt8) :=
  if pieces.getLast? = some [] then pieces.dropLast else pieces

/-- The pieces of a file between its line feeds. What follows the last line feed is a piece unless it
is empty. -/
def filePieces (bytes : List UInt8) : List (List UInt8) :=
  dropEmptyLast (bytes.splitOn 10)

/-- Only the last piece may be left out. -/
theorem dropEmptyLast_cons (piece : List UInt8) {pieces : List (List UInt8)} (h : pieces ≠ []) :
    dropEmptyLast (piece :: pieces) = piece :: dropEmptyLast pieces := by
  obtain ⟨p, more, rfl⟩ := List.exists_cons_of_ne_nil h
  simp only [dropEmptyLast, List.getLast?_cons_cons, List.dropLast_cons_cons]
  split <;> rfl

/-- A byte in front makes no piece empty, and a piece that was left out comes back with it. -/
theorem dropEmptyLast_modifyHead (b : UInt8) {pieces : List (List UInt8)} (h : pieces ≠ []) :
    dropEmptyLast (pieces.modifyHead (b :: ·)) = consByte b (dropEmptyLast pieces) := by
  obtain ⟨p, more, rfl⟩ := List.exists_cons_of_ne_nil h
  rw [List.modifyHead_cons]
  by_cases hmore : more = []
  · subst hmore
    cases p <;> rfl
  · rw [dropEmptyLast_cons _ hmore, dropEmptyLast_cons _ hmore]
    rfl

theorem filePieces_lineFeed (rest : List UInt8) :
    filePieces (10 :: rest) = [] :: filePieces rest := by
  rw [filePieces, List.splitOn_cons_eq_if_modifyHead, if_pos (by rfl),
    dropEmptyLast_cons _ (List.splitOn_ne_nil 10 rest)]
  rfl

theorem filePieces_cons {b : UInt8} (h : b ≠ 10) (rest : List UInt8) :
    filePieces (b :: rest) = consByte b (filePieces rest) := by
  rw [filePieces, List.splitOn_cons_eq_if_modifyHead, if_neg (by simpa using h),
    dropEmptyLast_modifyHead b (List.splitOn_ne_nil 10 rest)]
  rfl

/-- Whether a line is a piece as it is, or without a carriage return at the end. -/
def LineOf (line piece : List UInt8) : Prop :=
  piece = line ∨ piece = line ++ [13]

/-- A byte in front of the first line is a byte in front of the first piece. -/
theorem forall₂_consByte (b : UInt8) {lines pieces : List (List UInt8)}
    (h : List.Forall₂ LineOf lines pieces) :
    List.Forall₂ LineOf (consByte b lines) (consByte b pieces) := by
  cases h with
  | nil => exact .cons (Or.inl rfl) .nil
  | cons hline hrest =>
    refine .cons ?_ hrest
    rcases hline with rfl | rfl
    · exact Or.inl rfl
    · exact Or.inr rfl

/-- The lines of a file are its pieces, but for a carriage return at the end of some. -/
theorem forall₂_byteLines (bytes : List UInt8) :
    List.Forall₂ LineOf (byteLines bytes) (filePieces bytes) := by
  fun_induction byteLines bytes with
  | case1 => exact .nil
  | case2 rest ih =>
    rw [filePieces_cons (by decide), filePieces_lineFeed]
    exact .cons (Or.inr rfl) ih
  | case3 rest ih =>
    rw [filePieces_lineFeed]
    exact .cons (Or.inl rfl) ih
  | case4 b rest _ hb ih =>
    rw [filePieces_cons hb]
    exact forall₂_consByte b ih

/-! ## Decoding -/

/-- The bytes of a text in UTF-8. -/
def utf8Bytes (text : List Char) : List UInt8 :=
  text.flatMap String.utf8EncodeChar

theorem utf8Bytes_append (v w : List Char) : utf8Bytes (v ++ w) = utf8Bytes v ++ utf8Bytes w :=
  List.flatMap_append

theorem utf8Bytes_singleton (c : Char) : utf8Bytes [c] = String.utf8EncodeChar c :=
  List.flatMap_singleton _ c

/-- What bytes are decoded to: the text that they are the encoding of, if there is one. -/
def Decodes (line : List UInt8) : Option (List Char) → Prop
  | none => ∀ text, line ≠ utf8Bytes text
  | some text => line = utf8Bytes text

/-- Decoding inverts encoding. -/
theorem decodeLine_eq_some_iff {line : List UInt8} {text : List Char} :
    decodeLine line = some text ↔ line = utf8Bytes text := by
  have hbytes : (⟨line.toArray⟩ : ByteArray) = line.toByteArray :=
    ByteArray.ext List.data_toByteArray.symm
  rw [decodeLine, hbytes, String.fromUTF8?]
  constructor
  · intro h
    obtain ⟨s, hs, rfl⟩ := Option.map_eq_some_iff.1 h
    split at hs
    · next hvalid =>
      obtain rfl := Option.some.inj hs
      -- the bytes of a string are those of its characters
      have hencode :=
        String.toByteArray_ofList (l := (String.fromUTF8 line.toByteArray hvalid).toList)
      rw [String.ofList_toList] at hencode
      exact List.toByteArray_inj.1 hencode
    · cases hs
  · rintro rfl
    have hvalid : (utf8Bytes text).toByteArray.IsValidUTF8 := ⟨text, rfl⟩
    have hstring : String.fromUTF8 (utf8Bytes text).toByteArray hvalid = String.ofList text :=
      String.toByteArray_inj.1 String.toByteArray_ofList.symm
    rw [dif_pos hvalid, hstring, Option.map_some, String.toList_ofList]

theorem decodes_decodeLine (line : List UInt8) : Decodes line (decodeLine line) := by
  cases h : decodeLine line with
  | none =>
    rintro text rfl
    rw [decodeLine_eq_some_iff.2 rfl] at h
    cases h
  | some text => exact decodeLine_eq_some_iff.1 h

/-- The encoding of a character ends in a carriage return only if the character is one. -/
theorem eq_return_of_getLast? {c : Char} (h : (String.utf8EncodeChar c).getLast? = some 13) :
    c = '\r' := by
  have hlast : ∀ n, UInt8.ofNat n = 13 → n % 256 = 13 := by
    intro n hn
    have htoNat := congrArg UInt8.toNat hn
    rwa [UInt8.toNat_ofNat] at htoNat
  simp only [String.utf8EncodeChar] at h
  split at h
  · next hsmall =>
    have hcode := hlast _ (Option.some.inj h)
    refine Char.toNat_inj.1 ?_
    show c.val.toNat = 13
    omega
  · -- a byte that continues a character has its highest bit set
    split at h
    · have hcode := hlast _ (Option.some.inj h)
      omega
    · split at h <;>
        · have hcode := hlast _ (Option.some.inj h)
          omega

/-- Bytes that end in a carriage return are the encoding of a text that ends in one. -/
theorem exists_of_append_return {line : List UInt8} {text : List Char}
    (h : line ++ [13] = utf8Bytes text) :
    ∃ before, text = before ++ ['\r'] ∧ line = utf8Bytes before := by
  obtain rfl | ⟨before, c, rfl⟩ := List.eq_nil_or_concat text
  · exact absurd h (by simp [utf8Bytes])
  · rw [List.concat_eq_append, utf8Bytes_append] at h
    have hlast : (String.utf8EncodeChar c).getLast? = some 13 := by
      have hend := congrArg List.getLast? h
      rw [List.getLast?_concat, utf8Bytes_singleton,
        List.getLast?_append_of_ne_nil _ String.utf8EncodeChar_ne_nil] at hend
      exact hend.symm
    obtain rfl := eq_return_of_getLast? hlast
    exact ⟨before, List.concat_eq_append, List.append_cancel_right h⟩

/-- A carriage return at the end of a line is a carriage return at the end of its text. -/
theorem decodeLine_append_return (line : List UInt8) :
    decodeLine (line ++ [13]) = (decodeLine line).map (· ++ ['\r']) := by
  cases h : decodeLine line with
  | some text =>
    obtain rfl := decodeLine_eq_some_iff.1 h
    exact decodeLine_eq_some_iff.2 (utf8Bytes_append text ['\r']).symm
  | none =>
    cases h' : decodeLine (line ++ [13]) with
    | none => rfl
    | some text =>
      obtain ⟨before, -, rfl⟩ := exists_of_append_return (decodeLine_eq_some_iff.1 h')
      rw [decodeLine_eq_some_iff.2 rfl] at h
      cases h

end LL1
