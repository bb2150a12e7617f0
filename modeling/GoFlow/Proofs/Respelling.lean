import GoFlow.Proofs.Decoding
import GoFlow.Respell.Files
import Mathlib.Data.List.Infix

/-! Respelling as one pass. The two replacements are made one after the other and line by line, but
neither makes an occurrence of what is looked for later, with whatever stands around it, and no line
end stands within a word that is looked for. So the text is respelled as if it were read once from
left to right, and a second time nothing is left to respell. -/

namespace GoFlow

namespace Text

section

variable {word other front cs xs ys p : List Char} {c : Char}

theorem replaceAll_cons (absent : ¬ word <+: c :: cs) :
    replaceAll word other (c :: cs) = c :: replaceAll word other cs := by
  rw [replaceAll, if_neg fun here => absent (List.isPrefixOf_iff_prefix.mp here)]

theorem replaceAll_word (some : word ≠ []) :
    replaceAll word other (word ++ cs) = other ++ replaceAll word other cs := by
  cases word with
  | nil => exact absurd rfl some
  | cons d word =>
      have begins : (d :: word).isPrefixOf (d :: (word ++ cs)) = true :=
        List.isPrefixOf_iff_prefix.mpr (List.prefix_append _ _)
      rw [List.cons_append, replaceAll, if_pos begins, List.length_cons, Nat.add_sub_cancel,
        List.drop_left]

theorem replaceAll_of_absent (absent : ¬ word <:+: cs) : replaceAll word other cs = cs := by
  induction cs with
  | nil => rw [replaceAll]
  | cons c cs ih =>
      rw [List.infix_cons_iff, not_or] at absent
      rw [replaceAll_cons absent.1, ih absent.2]

theorem mem_replaceAll (here : c ∈ replaceAll word other cs) : c ∈ other ∨ c ∈ cs := by
  fun_induction replaceAll word other cs with
  | case1 => exact .inr here
  | case2 d cs begins ih =>
      obtain there | there := List.mem_append.mp here
      · exact .inl there
      · exact (ih there).imp_right fun later => .tail d (List.mem_of_mem_drop later)
  | case3 d cs absent ih =>
      obtain rfl | there := List.mem_cons.mp here
      · exact .inr (.head _)
      · exact (ih there).imp_right (.tail d)

/-- The word differs from every end of the text before either of them is over, so it does not begin
within the text, whatever follows there. -/
def Apart (word front : List Char) : Prop := ∀ q ∈ front.tails, q ≠ [] → ¬ word <+: q ∧ ¬ q <+: word

instance (word front : List Char) : Decidable (Apart word front) :=
  inferInstanceAs (Decidable (∀ q ∈ front.tails, q ≠ [] → ¬ word <+: q ∧ ¬ q <+: word))

theorem Apart.tail (apart : Apart word (c :: front)) : Apart word front :=
  fun q there => apart q (by rw [List.tails_cons]; exact .tail _ there)

/-- Two texts that are apart do not begin at one place. -/
theorem Apart.not_prefix_of_prefix (apart : Apart word (c :: front)) (begins : c :: front <+: cs) :
    ¬ word <+: cs := by
  intro wordBegins
  have both :=
    apart (c :: front) (by rw [List.tails_cons]; exact .head _) (List.cons_ne_nil c front)
  obtain longer | shorter := List.prefix_or_prefix_of_prefix wordBegins begins
  · exact both.1 longer
  · exact both.2 shorter

theorem Apart.not_prefix (apart : Apart word (c :: front)) (rest : List Char) :
    ¬ word <+: c :: (front ++ rest) :=
  apart.not_prefix_of_prefix (List.prefix_append (c :: front) rest)

theorem Apart.replaceAll_append (apart : Apart word front) (rest : List Char) :
    replaceAll word other (front ++ rest) = front ++ replaceAll word other rest := by
  induction front with
  | nil => rfl
  | cons c front ih =>
      rw [List.cons_append, replaceAll_cons (apart.not_prefix rest), ih apart.tail,
        List.cons_append]

theorem Apart.infix_append (apart : Apart word front) {rest : List Char}
    (here : word <:+: front ++ rest) : word <:+: rest := by
  induction front with
  | nil => exact here
  | cons c front ih =>
      exact ih apart.tail ((List.infix_cons_iff.mp here).resolve_left (apart.not_prefix rest))

/-- What a text begins with after a replacement it began with before, if the word put in can have no
part in it. -/
theorem Apart.prefix_of_replaceAll (apart : Apart other p)
    (begins : p <+: replaceAll word other cs) : p <+: cs := by
  induction p generalizing cs with
  | nil => exact List.nil_prefix
  | cons d p ih =>
      cases cs with
      | nil =>
          rw [replaceAll] at begins
          exact begins
      | cons c cs =>
          by_cases here : word.isPrefixOf (c :: cs) = true
          · rw [replaceAll, if_pos here] at begins
            exact absurd (List.prefix_append other _) (apart.not_prefix_of_prefix begins)
          · rw [replaceAll, if_neg here, List.cons_prefix_cons] at begins
            exact List.cons_prefix_cons.mpr ⟨begins.1, ih apart.tail begins.2⟩

/-- Nothing is left of a word that is replaced by one that it is apart from on both sides. -/
theorem not_infix_replaceAll (before : Apart other word) (after : Apart word other)
    (some : word ≠ []) : ¬ word <:+: replaceAll word other cs := by
  fun_induction replaceAll word other cs with
  | case1 => exact fun here => some (List.infix_nil.mp here)
  | case2 c cs begins ih => exact fun here => ih (after.infix_append here)
  | case3 c cs absent ih =>
      intro here
      obtain begins | later := List.infix_cons_iff.mp here
      -- the word would begin with a character that stayed and go on in what was put in
      · rw [← replaceAll_cons fun here => absent (List.isPrefixOf_iff_prefix.mpr here)] at begins
        exact absent (List.isPrefixOf_iff_prefix.mpr (before.prefix_of_replaceAll begins))
      · exact ih later

/-- A word in which a character does not occur ends before that character. -/
theorem prefix_before (absent : c ∉ word) (begins : word <+: xs ++ c :: ys) : word <+: xs := by
  obtain within | beyond := List.prefix_or_prefix_of_prefix begins (List.prefix_append xs (c :: ys))
  · exact within
  · obtain ⟨rest, rfl⟩ := beyond
    cases rest with
    | nil => simp
    | cons d rest =>
        have same : d = c :=
          (List.cons_prefix_cons.mp ((List.prefix_append_right_inj xs).mp begins)).1
        exact absurd (by simp [same]) absent

/-- A replacement is made on both sides of a character that does not occur in the word. -/
theorem replaceAll_beside (absent : c ∉ word) (some : word ≠ []) :
    replaceAll word other (xs ++ c :: ys) = replaceAll word other xs ++ c :: replaceAll word
      other ys := by
  fun_induction replaceAll word other xs with
  | case1 =>
      refine replaceAll_cons fun begins => some ?_
      exact List.prefix_nil.mp (prefix_before absent begins)
  | case2 d xs begins ih =>
      obtain ⟨rest, whole⟩ := List.isPrefixOf_iff_prefix.mp begins
      have dropped : xs.drop (word.length - 1) = rest := by
        cases word with
        | nil => exact absurd rfl some
        | cons e word =>
            have tail : word ++ rest = xs := (List.cons.inj whole).2
            rw [← tail, List.length_cons, Nat.add_sub_cancel, List.drop_left]
      rw [dropped] at ih ⊢
      rw [← whole, List.append_assoc, replaceAll_word some, ih, List.append_assoc]
  | case3 d xs missing ih =>
      rw [List.cons_append, replaceAll_cons, ih, List.cons_append]
      exact fun begins => missing (List.isPrefixOf_iff_prefix.mpr (prefix_before absent begins))

end

theorem lines_flatten (cs : List Char) : (lines cs).flatten = cs := by
  fun_induction lines cs with
  | case1 => rfl
  | case2 cs ih => rw [List.flatten_cons, ih, List.singleton_append]
  | case3 c cs notEnd l ls rest ih =>
      rw [rest, List.flatten_cons] at ih
      rw [List.flatten_cons, List.cons_append, ih]
  | case4 c cs notEnd rest ih =>
      rw [rest, List.flatten_nil] at ih
      rw [← ih]
      rfl

/-- A line after which another one follows has its line feed. -/
def Ended (l _next : List Char) : Prop := ∃ front, l = front ++ ['\n']

theorem lines_ended (cs : List Char) : (lines cs).IsChain Ended := by
  fun_induction lines cs with
  | case1 => exact .nil
  | case2 cs ih =>
      cases rest : lines cs with
      | nil => exact .singleton _
      | cons l ls => exact List.isChain_cons_cons.mpr ⟨⟨[], rfl⟩, rest ▸ ih⟩
  | case3 c cs notEnd l ls rest ih =>
      rw [rest] at ih
      cases ls with
      | nil => exact .singleton _
      | cons next ls =>
          obtain ⟨⟨front, rfl⟩, others⟩ := List.isChain_cons_cons.mp ih
          exact List.isChain_cons_cons.mpr ⟨⟨c :: front, rfl⟩, others⟩
  | case4 c cs notEnd rest ih => exact .singleton _

section

variable {f : List Char → List Char}

/-- What can be done on both sides of a line feed can be done line by line. -/
theorem flatMap_of_ended (empty : f [] = [])
    (beside : ∀ xs ys, f (xs ++ '\n' :: ys) = f xs ++ '\n' :: f ys) {ls : List (List Char)}
    (ended : ls.IsChain Ended) : ls.flatMap f = f ls.flatten := by
  induction ls with
  | nil => exact empty.symm
  | cons l ls ih =>
      cases ls with
      | nil => simp
      | cons next ls =>
          obtain ⟨⟨front, rfl⟩, others⟩ := List.isChain_cons_cons.mp ended
          have whole : ((front ++ ['\n']) :: next :: ls).flatten = front ++ '\n' ::
            (next :: ls).flatten := by simp
          rw [whole, beside, List.flatMap_cons, ih others, beside front [], empty,
            List.append_assoc, List.singleton_append]

theorem flatMap_lines (empty : f [] = [])
    (beside : ∀ xs ys, f (xs ++ '\n' :: ys) = f xs ++ '\n' :: f ys) (cs : List Char) :
    (lines cs).flatMap f = f cs := by
  rw [flatMap_of_ended empty beside (lines_ended cs), lines_flatten]

end

theorem normalNewlines_absent (cs : List Char) : '\r' ∉ normalNewlines cs := by
  fun_induction normalNewlines cs with
  | case1 cs ih => simp [ih]
  | case2 cs single ih => simp [ih]
  | case3 c cs pair single ih => exact List.not_mem_cons_of_ne_of_not_mem (Ne.symm single) ih
  | case4 => simp

theorem normalNewlines_of_absent {cs : List Char} (absent : '\r' ∉ cs) :
    normalNewlines cs = cs := by
  fun_induction normalNewlines cs with
  | case1 cs ih => exact absurd (.head _) absent
  | case2 cs single ih => exact absurd (.head _) absent
  | case3 c cs pair single ih => rw [ih (List.not_mem_of_not_mem_cons absent)]
  | case4 => rfl

end Text

namespace Folder

theorem find?_put (folder : Folder) (path : String) (bytes : List UInt8) :
    (folder.put path bytes).find? path = some ⟨nameOf path, bytes⟩ := by
  have gone : List.find? (fun f => f.name == nameOf path) (folder.erase path) = none := by
    rw [List.find?_eq_none]
    intro f kept
    have other := (List.mem_filter.mp kept).2
    rw [bne_iff_ne] at other
    rwa [beq_iff_eq]
  rw [put, find?, List.find?_append, gone, Option.none_or, List.find?_singleton,
    if_pos (beq_self_eq_true _)]

end Folder

namespace Respell

/-- The text read once from left to right: a receiver that is negated, any other receiver, or a
character that stays. -/
def inOnePass : List Char → List Char
  | '!' :: 't' :: 'h' :: 'i' :: 's' :: '.' :: cs => "not self.".toList ++ inOnePass cs
  | 't' :: 'h' :: 'i' :: 's' :: '.' :: cs => "self.".toList ++ inOnePass cs
  | c :: cs => c :: inOnePass cs
  | [] => []

theorem line_nil : line [] = [] := by rw [line, negated, Text.replaceAll, plain, Text.replaceAll]

theorem line_eq_inOnePass (cs : List Char) : line cs = inOnePass cs := by
  fun_induction inOnePass cs with
  | case1 cs ih =>
      have first : negated ("!this.".toList ++ cs) = "not self.".toList ++ negated cs :=
        Text.replaceAll_word (by decide)
      have apart : Text.Apart "this.".toList "not self.".toList := by decide
      exact (congrArg plain first).trans ((apart.replaceAll_append _).trans (congrArg _ ih))
  | case2 cs ih =>
      have apart : Text.Apart "!this.".toList "this.".toList := by decide
      have first : negated ("this.".toList ++ cs) = "this.".toList ++ negated cs :=
        apart.replaceAll_append cs
      have second : plain ("this.".toList ++ negated cs) = "self.".toList ++ line cs :=
        Text.replaceAll_word (by decide)
      exact (congrArg plain first).trans (second.trans (congrArg _ ih))
  | case3 c cs notNegated notPlain ih =>
      have first : ¬ "!this.".toList <+: c :: cs := by
        rintro ⟨rest, whole⟩
        exact notNegated rest (List.cons.inj whole).1.symm (List.cons.inj whole).2.symm
      have second : ¬ "this.".toList <+: negated (c :: cs) := by
        intro begins
        -- what stands where negated receivers were has no part in the word
        have apart : Text.Apart "not self.".toList "this.".toList := by decide
        obtain ⟨rest, whole⟩ := apart.prefix_of_replaceAll begins
        exact notPlain rest (List.cons.inj whole).1.symm (List.cons.inj whole).2.symm
      have stays : negated (c :: cs) = c :: negated cs := Text.replaceAll_cons first
      rw [stays] at second
      rw [line, stays, plain, Text.replaceAll_cons second, ← ih]
      rfl
  | case4 => exact line_nil

theorem line_beside (xs ys : List Char) : line (xs ++ '\n' :: ys) = line xs ++ '\n' :: line ys := by
  rw [line, negated, Text.replaceAll_beside (by decide) (by decide), plain,
    Text.replaceAll_beside (by decide) (by decide)]
  rfl

/-- A text is respelled line by line as it is in one pass. -/
theorem lines_eq_inOnePass (cs : List Char) : lines (Text.lines cs) = inOnePass cs :=
  (Text.flatMap_lines line_nil line_beside cs).trans (line_eq_inOnePass cs)

theorem not_infix_inOnePass (cs : List Char) : ¬ "this.".toList <:+: inOnePass cs := by
  rw [← line_eq_inOnePass]
  exact Text.not_infix_replaceAll (by decide) (by decide) (by decide)

theorem inOnePass_twice (cs : List Char) : inOnePass (inOnePass cs) = inOnePass cs := by
  have absent := not_infix_inOnePass cs
  have first : negated (inOnePass cs) = inOnePass cs :=
    Text.replaceAll_of_absent fun here => absent (List.IsInfix.trans ⟨['!'], [], rfl⟩ here)
  rw [← line_eq_inOnePass (inOnePass cs), line, first]
  exact Text.replaceAll_of_absent absent

theorem return_absent {cs : List Char} (absent : '\r' ∉ cs) : '\r' ∉ inOnePass cs := by
  rw [← line_eq_inOnePass]
  intro here
  obtain inSelf | before := Text.mem_replaceAll here
  · exact absurd inSelf (by decide)
  · exact (Text.mem_replaceAll before).elim (by decide) absent

theorem bytes_toBytes (s : String) :
    bytes (Text.toBytes s) =
      (Text.toBytes (String.ofList (inOnePass (Text.normalNewlines s.toList))), none) := by
  simp only [bytes, Text.readInParts_toBytes, lines_eq_inOnePass]

theorem bytes_twice (cs : List Char) :
    bytes (Text.toBytes (String.ofList (inOnePass (Text.normalNewlines cs)))) =
      (Text.toBytes (String.ofList (inOnePass (Text.normalNewlines cs))), none) := by
  have plainEnds := return_absent (Text.normalNewlines_absent cs)
  rw [bytes_toBytes, String.toList_ofList, Text.normalNewlines_of_absent plainEnds, inOnePass_twice]

theorem file_of_bytes {folder : Folder} {path : String} {f : File} {respelled : List UInt8}
    (found : folder.find? path = some f) (whole : bytes f.bytes = (respelled, none)) :
    (file folder path).error = none ∧
      (file folder path).folder.find? path = some ⟨Folder.nameOf path, respelled⟩ := by
  simp only [file, found, whole]
  exact ⟨trivial, Folder.find?_put _ path respelled⟩

/-- Respelling a file puts in its place the text that one pass from left to right makes of it, with
its line ends as line feeds. The former receiver does not occur in it, and respelling it again
changes nothing. -/
theorem file_respelled_in_one_pass {folder : Folder} {path : String} {f : File} {s : String}
    (found : folder.find? path = some f) (text : f.bytes = Text.toBytes s) :
    let out := inOnePass (Text.normalNewlines s.toList)
    let first := file folder path
    let second := file first.folder path
    first.error = none ∧
      first.folder.find? path = some ⟨Folder.nameOf path, Text.toBytes (String.ofList out)⟩ ∧
      ¬ "this.".toList <:+: out ∧
      second.error = none ∧ second.folder.find? path = first.folder.find? path := by
  intro out first second
  obtain ⟨fine, placed⟩ := file_of_bytes found (text ▸ bytes_toBytes s)
  obtain ⟨fineAgain, placedAgain⟩ := file_of_bytes placed (bytes_twice s.toList)
  exact ⟨fine, placed, not_infix_inOnePass _, fineAgain, placedAgain.trans placed.symm⟩

theorem overlapping_receivers_respelled :
    let path := "./go_lexer.g4"
    let f : File := ⟨Folder.nameOf path, Text.toBytes "!!this.p\r\nthithis.this.s."⟩
    let first := file [f] path
    let second := file first.folder path
    second.folder.find? path =
      some ⟨Folder.nameOf path, Text.toBytes "!not self.p\nthiself.self.s."⟩ := by
  intro path f first second
  have found : Folder.find? [f] path = some f := by
    rw [Folder.find?, List.find?_singleton, if_pos (beq_self_eq_true _)]
  obtain ⟨-, placed, -, -, same⟩ := file_respelled_in_one_pass found rfl
  exact same.trans placed

end Respell

end GoFlow
