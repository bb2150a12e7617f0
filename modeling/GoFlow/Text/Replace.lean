/-!
Putting one word in place of another throughout a text.
-/

namespace GoFlow.Text

/-- Every occurrence of a word, from left to right, put in other words. Occurrences do not
overlap. -/
def replaceAll (word other : List Char) : List Char → List Char
  | [] => []
  | c :: cs =>
      if word.isPrefixOf (c :: cs) then
        other ++ replaceAll word other (cs.drop (word.length - 1))
      else c :: replaceAll word other cs
termination_by cs => cs.length
decreasing_by
  · simp only [List.length_drop, List.length_cons]
    omega
  · simp only [List.length_cons]
    omega

end GoFlow.Text
