import GoFlow.Text.Bytes
import Mathlib.Data.List.Basic

/-! Texts that are written as bytes and read again, whole or part by part. A part may end within a
character; the bytes of that character are then left over and read with the next part, so that
nothing is lost. -/

namespace GoFlow.Text

open String (utf8EncodeChar)

theorem byteList_loop (bs : ByteArray) (i : Nat) (r : List UInt8) :
    ByteArray.toList.loop bs i r = r.reverse ++ bs.data.toList.drop i := by
  fun_induction ByteArray.toList.loop bs i r with
  | case1 i r below ih =>
      have bound : i < bs.data.size := below
      have here : bs.get! i = bs.data[i] := by
        cases bs
        exact getElem!_pos _ i bound
      have dropped : bs.data.toList.drop i = bs.data[i] :: bs.data.toList.drop (i + 1) :=
        List.drop_eq_getElem_cons (by simpa using bound)
      rw [ih, dropped, here, List.reverse_cons, List.append_assoc]
      rfl
  | case2 i r beyond =>
      rw [List.drop_eq_nil_of_le, List.append_nil]
      simpa using beyond

theorem toBytes_eq (s : String) : toBytes s = s.toList.flatMap utf8EncodeChar := by
  have list : toBytes s = s.toByteArray.data.toList := byteList_loop s.toByteArray 0 []
  rw [list, ← String.utf8Encode_toList, List.utf8Encode, List.data_toByteArray, List.toList_toArray]

/-- The first byte after the lead lies between the bounds, the others are plain continuation
bytes. -/
def Fits : UInt8 → UInt8 → List UInt8 → Prop
  | _, _, [] => True
  | lo, hi, b :: bs => lo ≤ b ∧ b ≤ hi ∧ Fits 0x80 0xBF bs

section

variable {lo hi b : UInt8} {n : Nat} {tail part rest p : List UInt8} {c : Char}

theorem continuation_append (fits : Fits lo hi tail) (rest : List UInt8) :
    continuation lo hi tail.length (tail ++ rest) = tail := by
  induction tail generalizing lo hi with
  | nil => rfl
  | cons b tail ih =>
      obtain ⟨above, below, more⟩ := fits
      rw [List.length_cons, List.cons_append, continuation,
        if_pos (by simp [above, below]), ih more]

/-- Bytes that end before the continuation is complete belong to it. -/
theorem continuation_short (fits : Fits lo hi part) (short : part.length ≤ n) :
    continuation lo hi n part = part := by
  induction part generalizing lo hi n with
  | nil => cases n <;> rfl
  | cons b part ih =>
      obtain ⟨above, below, more⟩ := fits
      cases n with
      | zero => cases short
      | succ n =>
          rw [continuation, if_pos (by simp [above, below]), ih more (Nat.le_of_succ_le_succ short)]

theorem Fits.front (fits : Fits lo hi (part ++ rest)) : Fits lo hi part := by
  induction part generalizing lo hi with
  | nil => trivial
  | cons b part ih => exact ⟨fits.1, fits.2.1, ih fits.2.2⟩

/-- The lead and the continuation by which a character is written. -/
structure Written (c : Char) (lead : UInt8) (tail : List UInt8) : Prop where
  bytes : utf8EncodeChar c = lead :: tail
  form : ∃ lo hi, tailOf lead = some (tail.length, lo, hi) ∧ Fits lo hi tail
  number : charNumber lead tail = c.toNat

theorem tailOf_toNat (b : UInt8) : tailOf b =
    if b.toNat < 0x80 then some (0, 0x80, 0xBF)
    else if b.toNat < 0xC2 then none
    else if b.toNat < 0xE0 then some (1, 0x80, 0xBF)
    else if b.toNat = 0xE0 then some (2, 0xA0, 0xBF)
    else if b.toNat = 0xED then some (2, 0x80, 0x9F)
    else if b.toNat < 0xF0 then some (2, 0x80, 0xBF)
    else if b.toNat = 0xF0 then some (3, 0x90, 0xBF)
    else if b.toNat < 0xF4 then some (3, 0x80, 0xBF)
    else if b.toNat = 0xF4 then some (3, 0x80, 0x8F)
    else none := by
  simp only [tailOf, UInt8.lt_iff_toNat_lt, ← UInt8.toNat_inj]
  rfl

theorem toNat_ofNat_of_lt {n : Nat} (bound : n < 256) : (UInt8.ofNat n).toNat = n := by
  rw [UInt8.toNat_ofNat', Nat.mod_eq_of_lt bound]

/-- The continuation byte that holds the last six bits of a number. -/
def sixBits (n : Nat) : UInt8 := UInt8.ofNat (n % 64 + 128)

theorem toNat_sixBits (n : Nat) : (sixBits n).toNat = n % 64 + 128 := toNat_ofNat_of_lt (by omega)

theorem sixBits_between {n : Nat} (above : lo.toNat ≤ n % 64 + 128)
    (below : n % 64 + 128 ≤ hi.toNat) : lo ≤ sixBits n ∧ sixBits n ≤ hi := by
  rw [UInt8.le_iff_toNat_le, UInt8.le_iff_toNat_le, toNat_sixBits]
  exact ⟨above, below⟩

theorem fits_map_sixBits : ∀ ns : List Nat, Fits 0x80 0xBF (ns.map sixBits)
  | [] => trivial
  | _ :: ns =>
    have between :=
      @sixBits_between 0x80 0xBF _ (by change 128 ≤ _; omega) (by change _ ≤ 191; omega)
    ⟨between.1, between.2, fits_map_sixBits ns⟩

theorem fits_sixBits {n : Nat} (above : lo.toNat ≤ n % 64 + 128) (below : n % 64 + 128 ≤ hi.toNat)
    (ns : List Nat) : Fits lo hi (sixBits n :: ns.map sixBits) :=
  ⟨(sixBits_between above below).1, (sixBits_between above below).2, fits_map_sixBits ns⟩

theorem written_one (bound : c.toNat ≤ 0x7F) : Written c (UInt8.ofNat c.toNat) [] := by
  have lead : (UInt8.ofNat c.toNat).toNat = c.toNat := toNat_ofNat_of_lt (by omega)
  refine ⟨if_pos bound, ⟨0x80, 0xBF, ?_, trivial⟩, lead⟩
  rw [tailOf_toNat, lead, if_pos (by omega)]
  rfl

theorem written_two (above : 0x7F < c.toNat) (bound : c.toNat ≤ 0x7FF) :
    Written c (UInt8.ofNat (c.toNat / 64 % 32 + 192)) ([c.toNat].map sixBits) := by
  have lead : (UInt8.ofNat (c.toNat / 64 % 32 + 192)).toNat = c.toNat / 64 + 192 := by
    rw [toNat_ofNat_of_lt (by omega)]
    omega
  refine ⟨(if_neg (Nat.not_le.mpr above)).trans (if_pos bound), ⟨0x80, 0xBF, ?_, ?_⟩, ?_⟩
  · rw [tailOf_toNat, lead, if_neg (by omega), if_neg (by omega), if_pos (by omega)]
    rfl
  · exact fits_sixBits (by change 128 ≤ _; omega) (by change _ ≤ 191; omega) []
  · simp only [charNumber, List.map_cons, List.map_nil, List.length_cons, List.length_nil,
      List.foldl_cons, List.foldl_nil, lead, toNat_sixBits]
    omega

theorem valid_number (c : Char) : c.toNat < 0xD800 ∨ 0xDFFF < c.toNat ∧ c.toNat < 0x110000 :=
  c.valid

theorem written_three (above : 0x7FF < c.toNat) (bound : c.toNat ≤ 0xFFFF) :
    Written c (UInt8.ofNat (c.toNat / 4096 % 16 + 224)) ([c.toNat / 64, c.toNat].map sixBits) := by
  have lead : (UInt8.ofNat (c.toNat / 4096 % 16 + 224)).toNat = c.toNat / 4096 + 224 := by
    rw [toNat_ofNat_of_lt (by omega)]
    omega
  have valid := valid_number c
  refine ⟨?_, ?_, ?_⟩
  · exact (if_neg (by change ¬ c.toNat ≤ 127; omega)).trans
      ((if_neg (Nat.not_le.mpr above)).trans (if_pos bound))
  · rw [tailOf_toNat, lead, if_neg (by omega), if_neg (by omega), if_neg (by omega)]
    by_cases low : c.toNat / 4096 = 0
    · rw [if_pos (by omega)]
      exact ⟨0xA0, 0xBF, rfl, fits_sixBits (by change 160 ≤ _; omega) (by change _ ≤ 191; omega) _⟩
    · rw [if_neg (by omega)]
      -- no character has the number of a surrogate, so the second byte stays in the lower half
      by_cases surrogate : c.toNat / 4096 = 13
      · rw [if_pos (by omega)]
        exact ⟨0x80, 0x9F, rfl, fits_sixBits (by change 128 ≤ _; omega)
          (by change _ ≤ 159; omega) _⟩
      · rw [if_neg (by omega), if_pos (by omega)]
        exact ⟨0x80, 0xBF, rfl, fits_sixBits (by change 128 ≤ _; omega)
          (by change _ ≤ 191; omega) _⟩
  · simp only [charNumber, List.map_cons, List.map_nil, List.length_cons, List.length_nil,
      List.foldl_cons, List.foldl_nil, lead, toNat_sixBits]
    omega

theorem written_four (above : 0xFFFF < c.toNat) :
    Written c (UInt8.ofNat (c.toNat / 262144 % 8 + 240))
      ([c.toNat / 4096, c.toNat / 64, c.toNat].map sixBits) := by
  have valid := valid_number c
  have lead : (UInt8.ofNat (c.toNat / 262144 % 8 + 240)).toNat = c.toNat / 262144 + 240 := by
    rw [toNat_ofNat_of_lt (by omega)]
    omega
  refine ⟨?_, ?_, ?_⟩
  · exact (if_neg (by change ¬ c.toNat ≤ 127; omega)).trans
      ((if_neg (by change ¬ c.toNat ≤ 2047; omega)).trans (if_neg (Nat.not_le.mpr above)))
  · rw [tailOf_toNat, lead, if_neg (by omega), if_neg (by omega), if_neg (by omega),
      if_neg (by omega), if_neg (by omega), if_neg (by omega)]
    by_cases low : c.toNat / 262144 = 0
    · rw [if_pos (by omega)]
      exact ⟨0x90, 0xBF, rfl, fits_sixBits (by change 144 ≤ _; omega) (by change _ ≤ 191; omega) _⟩
    · rw [if_neg (by omega)]
      by_cases high : c.toNat / 262144 = 4
      · rw [if_neg (by omega), if_pos (by omega)]
        exact ⟨0x80, 0x8F, rfl, fits_sixBits (by change 128 ≤ _; omega)
          (by change _ ≤ 143; omega) _⟩
      · rw [if_pos (by omega)]
        exact ⟨0x80, 0xBF, rfl, fits_sixBits (by change 128 ≤ _; omega)
          (by change _ ≤ 191; omega) _⟩
  · simp only [charNumber, List.map_cons, List.map_nil, List.length_cons, List.length_nil,
      List.foldl_cons, List.foldl_nil, lead, toNat_sixBits]
    omega

theorem exists_written (c : Char) : ∃ lead tail, Written c lead tail := by
  by_cases one : c.toNat ≤ 0x7F
  · exact ⟨_, _, written_one one⟩
  · by_cases two : c.toNat ≤ 0x7FF
    · exact ⟨_, _, written_two (by omega) two⟩
    · by_cases three : c.toNat ≤ 0xFFFF
      · exact ⟨_, _, written_three (by omega) three⟩
      · exact ⟨_, _, written_four (by omega)⟩

theorem readByte_written {lead : UInt8} (written : Written c lead tail) (rest : List UInt8) :
    readByte lead (tail ++ rest) = .char c (tail.length + 1) := by
  obtain ⟨lo, hi, form, fits⟩ := written.form
  simp only [readByte, form, continuation_append fits, if_true, written.number, Char.ofNat_toNat]

theorem readByte_cut {lead : UInt8} (written : Written c lead (part ++ rest)) (more : rest ≠ []) :
    readByte lead part = .bad .cutOff (part.length + 1) := by
  obtain ⟨lo, hi, form, fits⟩ := written.form
  have length : (part ++ rest).length = part.length + rest.length := List.length_append
  have missing : part.length ≠ (part ++ rest).length := by
    have := List.length_pos_of_ne_nil more
    omega
  have short := continuation_short (n := (part ++ rest).length) fits.front (by omega)
  simp only [readByte, form, short, if_neg missing, if_true]

end

def encode (cs : List Char) : List UInt8 := cs.flatMap utf8EncodeChar

theorem decodeFrom_char (place : Nat) (c : Char) (bs : List UInt8) :
    ∃ next, decodeFrom place (utf8EncodeChar c ++ bs) =
      (c :: (decodeFrom next bs).1, (decodeFrom next bs).2) := by
  obtain ⟨lead, tail, written⟩ := exists_written c
  refine ⟨place + (tail.length + 1), ?_⟩
  rw [written.bytes, List.cons_append, decodeFrom]
  simp only [readByte_written written, Nat.add_sub_cancel, List.drop_left]

theorem decodeFrom_encode (place : Nat) (cs : List Char) (bs : List UInt8) :
    ∃ next, decodeFrom place (encode cs ++ bs) =
      (cs ++ (decodeFrom next bs).1, (decodeFrom next bs).2) := by
  induction cs generalizing place with
  | nil => exact ⟨place, rfl⟩
  | cons c cs ih =>
      obtain ⟨next, first⟩ := decodeFrom_char place c (encode cs ++ bs)
      obtain ⟨last, others⟩ := ih next
      refine ⟨last, ?_⟩
      rw [encode, List.flatMap_cons, List.append_assoc]
      exact first.trans (by rw [others, List.cons_append])

/-- Bytes that a character begins with and does not end with. -/
def Cut (bs : List UInt8) : Prop := ∃ c rest, rest ≠ [] ∧ utf8EncodeChar c = bs ++ rest

theorem cut_nil : Cut [] := ⟨'a', utf8EncodeChar 'a', by decide, rfl⟩

/-- Of a character that is cut off nothing is read, and all its bytes are left over. -/
theorem Cut.decodeFrom {bs : List UInt8} (cut : Cut bs) (place : Nat) :
    ∃ fault : Option ByteFault, decodeFrom place bs = ([], fault, bs) ∧ ∀ f ∈ fault,
      f.reason = .cutOff := by
  cases bs with
  | nil => exact ⟨none, by rw [Text.decodeFrom], by simp⟩
  | cons b bs =>
      obtain ⟨c, rest, more, bytes⟩ := cut
      obtain ⟨lead, tail, written⟩ := exists_written c
      obtain ⟨rfl, rfl⟩ : lead = b ∧ tail = bs ++ rest :=
        List.cons.inj (written.bytes.symm.trans bytes)
      refine ⟨some ⟨place, bs.length + 1, lead, .cutOff⟩, ?_, ?_⟩
      · rw [Text.decodeFrom]
        simp only [readByte_cut written more]
      · rintro f ⟨⟩
        rfl

/-- Wherever the bytes of a text are parted, whole characters and one that is cut off stand
before. -/
theorem encode_split {cs : List Char} {front back : List UInt8}
    (parted : front ++ back = encode cs) :
    ∃ before after cut, cs = before ++ after ∧ front = encode before ++ cut ∧
      cut ++ back = encode after ∧ Cut cut := by
  induction cs generalizing front with
  | nil =>
      obtain ⟨rfl, rfl⟩ := List.append_eq_nil_iff.mp parted
      exact ⟨[], [], [], rfl, rfl, rfl, cut_nil⟩
  | cons c cs ih =>
      have whole : front ++ back = utf8EncodeChar c ++ encode cs := parted
      obtain ⟨rest, first, others⟩ | ⟨later, rfl, others⟩ := List.append_eq_append_iff.mp whole
      · by_cases none : rest = []
        · subst none
          refine ⟨[c], cs, [], rfl, ?_, others, cut_nil⟩
          rw [encode, List.flatMap_singleton, first]
          simp
        · exact ⟨[], c :: cs, front, rfl, rfl, parted, c, rest, none, first⟩
      · obtain ⟨before, after, cut, rfl, rfl, afterwards, cutOff⟩ := ih others.symm
        exact ⟨c :: before, after, cut, rfl, (List.append_assoc _ _ _).symm, afterwards, cutOff⟩

theorem decodeFrom_split (place : Nat) (cs : List Char) {cut : List UInt8} (cutOff : Cut cut) :
    ∃ fault : Option ByteFault,
      decodeFrom place (encode cs ++ cut) = (cs, fault, cut) ∧ ∀ f ∈ fault, f.reason = .cutOff := by
  obtain ⟨next, decoded⟩ := decodeFrom_encode place cs cut
  obtain ⟨fault, left, mends⟩ := cutOff.decodeFrom next
  refine ⟨fault, ?_, mends⟩
  rw [decoded, left, List.append_nil]

/-- A text is read the same in whatever parts its bytes come. -/
theorem readParts_encode {cs : List Char} {left : List UInt8} {parts : List (List UInt8)}
    (bytes : left ++ parts.flatten = encode cs) : readParts left parts = ⟨cs, none⟩ := by
  induction parts generalizing left cs with
  | nil =>
      obtain ⟨next, decoded⟩ := decodeFrom_encode 0 cs []
      rw [List.flatten_nil, List.append_nil] at bytes
      rw [List.append_nil, ← bytes] at decoded
      rw [readParts, decoded, decodeFrom, List.append_nil]
  | cons part parts ih =>
      -- what the part leaves over and the parts after it are a text again
      rw [List.flatten_cons, ← List.append_assoc] at bytes
      obtain ⟨before, after, cut, rfl, front, back, cutOff⟩ := encode_split bytes
      obtain ⟨fault, decoded, mends⟩ := decodeFrom_split 0 before cutOff
      rw [← front] at decoded
      cases fault with
      | none => simp only [readParts, decoded, ih back]
      | some f =>
          have mended : f.mayMend cut = true := by
            simp only [ByteFault.mayMend, mends f rfl, beq_self_eq_true, Bool.true_or]
          simp only [readParts, decoded, mended, if_true, ih back]

theorem partsOf_flatten {size : Nat} (positive : 0 < size) {n : Nat} {bs : List UInt8}
    (enough : bs.length ≤ n) : (partsOf size n bs).flatten = bs := by
  induction n generalizing bs with
  | zero => rw [List.length_eq_zero_iff.mp (Nat.le_zero.mp enough), partsOf, List.flatten_nil]
  | succ n ih =>
      cases bs with
      | nil => rfl
      | cons b bs =>
          have shorter : ((b :: bs).drop size).length ≤ n := by
            rw [List.length_drop]
            omega
          rw [partsOf, List.flatten_cons, ih shorter, List.take_append_drop]
          exact List.cons_ne_nil b bs

/-- What is written of a text is read as that text, however long it is. -/
theorem readInParts_toBytes (s : String) : readInParts (toBytes s) = ⟨s.toList, none⟩ := by
  refine readParts_encode ?_
  rw [List.nil_append, partsOf_flatten (by decide) (Nat.le_refl _), toBytes_eq, encode]

end GoFlow.Text
