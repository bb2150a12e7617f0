import GoFlow.Pattern

/-! What a pattern matches, said without derivatives, and that derivatives find it out. A pattern in
which every class of characters has a member can go on as long as its derivative has not failed. -/

namespace GoFlow.Pattern

inductive Matches : Pattern → List Char → Prop
  | empty : Matches empty []
  | one {accepts : Char → Bool} {c : Char} (accepted : accepts c = true) : Matches (one accepts) [c]
  | seq {p q : Pattern} {xs ys : List Char} (first : Matches p xs) (second : Matches q ys) :
      Matches (seq p q) (xs ++ ys)
  | left {p q : Pattern} {xs : List Char} (side : Matches p xs) : Matches (alt p q) xs
  | right {p q : Pattern} {xs : List Char} (side : Matches q xs) : Matches (alt p q) xs
  | none {p : Pattern} : Matches (many p) []
  | more {p : Pattern} {xs ys : List Char} (first : Matches p xs) (rest : Matches (many p) ys) :
      Matches (many p) (xs ++ ys)

section

variable {p q : Pattern} {c : Char} {xs : List Char}

theorem not_matches_fail : ¬ Matches fail xs := by
  rintro ⟨⟩

theorem matches_empty : Matches empty xs ↔ xs = [] := by
  constructor
  · rintro ⟨⟩
    rfl
  · rintro rfl
    exact .empty

theorem matches_one {accepts : Char → Bool} :
    Matches (one accepts) xs ↔ ∃ d, accepts d = true ∧ xs = [d] := by
  constructor
  · rintro ⟨⟩
    exact ⟨_, ‹_›, rfl⟩
  · rintro ⟨d, accepted, rfl⟩
    exact .one accepted

theorem matches_seq :
    Matches (seq p q) xs ↔ ∃ ys zs, xs = ys ++ zs ∧ Matches p ys ∧ Matches q zs := by
  constructor
  · rintro ⟨⟩
    exact ⟨_, _, rfl, ‹_›, ‹_›⟩
  · rintro ⟨ys, zs, rfl, first, second⟩
    exact .seq first second

theorem matches_alt : Matches (alt p q) xs ↔ Matches p xs ∨ Matches q xs := by
  constructor
  · rintro (_ | _)
    · exact .inl ‹_›
    · exact .inr ‹_›
  · rintro (side | side)
    · exact .left side
    · exact .right side

theorem nullable_iff (p : Pattern) : p.nullable = true ↔ Matches p [] := by
  induction p with
  | fail => simp [nullable, not_matches_fail]
  | empty => simp [nullable, matches_empty]
  | one accepts => simp [nullable, matches_one]
  | seq p q hp hq =>
      rw [nullable, Bool.and_eq_true, hp, hq, matches_seq]
      constructor
      · rintro ⟨first, second⟩
        exact ⟨[], [], rfl, first, second⟩
      · rintro ⟨ys, zs, same, first, second⟩
        obtain ⟨rfl, rfl⟩ := List.append_eq_nil_iff.mp same.symm
        exact ⟨first, second⟩
  | alt p q hp hq => simp [nullable, matches_alt, hp, hq]
  | many p _ => simp [nullable, Matches.none]

theorem matches_andThen (p q : Pattern) : Matches (p.andThen q) xs ↔ Matches (seq p q) xs := by
  cases p with
  | fail => simp [andThen, matches_seq, not_matches_fail]
  | empty =>
      rw [andThen, matches_seq]
      constructor
      · intro second
        exact ⟨[], xs, rfl, .empty, second⟩
      · rintro ⟨ys, zs, rfl, first, second⟩
        cases first
        exact second
  | one _ | seq _ _ | alt _ _ | many _ => rfl

theorem matches_orElse (p q : Pattern) : Matches (p.orElse q) xs ↔ Matches (alt p q) xs := by
  cases p with
  | fail => simp [orElse, matches_alt, not_matches_fail]
  | empty | one _ | seq _ _ | alt _ _ | many _ =>
      cases q with
      | fail => simp [orElse, matches_alt, not_matches_fail]
      | empty | one _ | seq _ _ | alt _ _ | many _ => rfl

/-- A text of a sequence that begins with a character begins so in its first part, or in its second
part after a first part that matches nothing. -/
theorem matches_seq_cons : Matches (seq p q) (c :: xs) ↔
    (∃ ys zs, xs = ys ++ zs ∧ Matches p (c :: ys) ∧ Matches q zs) ∨ Matches p [] ∧
      Matches q (c :: xs) := by
  rw [matches_seq]
  constructor
  · rintro ⟨ys, zs, same, first, second⟩
    cases ys with
    | nil => exact .inr ⟨first, same ▸ second⟩
    | cons d ys =>
        cases same
        exact .inl ⟨ys, zs, rfl, first, second⟩
  · rintro (⟨ys, zs, rfl, first, second⟩ | ⟨first, second⟩)
    · exact ⟨c :: ys, zs, rfl, first, second⟩
    · exact ⟨[], c :: xs, rfl, first, second⟩

/-- Rounds of a repetition that match nothing can be left out. -/
theorem matches_many_cons : Matches (many p) (c :: xs) ↔
    ∃ ys zs, xs = ys ++ zs ∧ Matches p (c :: ys) ∧ Matches (many p) zs := by
  constructor
  · generalize whole : many p = m, split : c :: xs = text
    intro h
    induction h with
    | empty | one _ | seq _ _ | left _ | right _ => cases whole
    | none => cases split
    | @more p' ys zs first rest _ ih =>
        cases whole
        cases ys with
        | nil => exact ih rfl split
        | cons d ys =>
            cases split
            exact ⟨ys, zs, rfl, first, rest⟩
  · rintro ⟨ys, zs, rfl, first, rest⟩
    exact .more first rest

theorem matches_after (p : Pattern) (c : Char) (xs : List Char) :
    Matches (p.after c) xs ↔ Matches p (c :: xs) := by
  induction p generalizing xs with
  | fail => simp [after, not_matches_fail]
  | empty => simp [after, not_matches_fail, matches_empty]
  | one accepts =>
      by_cases accepted : accepts c = true
      · rw [after, if_pos accepted, matches_empty, matches_one]
        constructor
        · rintro rfl
          exact ⟨c, accepted, rfl⟩
        · rintro ⟨d, _, same⟩
          exact (List.cons.inj same).2
      · rw [after, if_neg accepted, matches_one]
        constructor
        · exact fun h => (not_matches_fail h).elim
        · rintro ⟨d, accepted', same⟩
          exact absurd ((List.cons.inj same).1 ▸ accepted') accepted
  | seq p q hp hq =>
      rw [matches_seq_cons]
      by_cases possible : p.nullable = true
      · have passed := (nullable_iff p).mp possible
        rw [after, if_pos possible, matches_orElse, matches_alt, matches_andThen, matches_seq]
        simp only [hp, hq, passed, true_and]
      · have never : ¬ Matches p [] := fun passed => possible ((nullable_iff p).mpr passed)
        rw [after, if_neg possible, matches_andThen, matches_seq]
        simp only [hp, never, false_and, or_false]
  | alt p q hp hq => simp only [after, matches_orElse, matches_alt, hp, hq]
  | many p hp => simp only [after, matches_andThen, matches_seq, hp, matches_many_cons]

/-- Taking derivatives decides what is matched. -/
theorem accepts_iff (p : Pattern) (xs : List Char) : p.accepts xs = true ↔ Matches p xs := by
  induction xs generalizing p with
  | nil => exact nullable_iff p
  | cons c xs ih =>
      rw [accepts, ih]
      exact matches_after p c xs

theorem isFail_iff (p : Pattern) : p.isFail = true ↔ p = fail := by
  cases p <;> simp [isFail]

end

/-- What is to hold of a character of ASCII may be found out code by code. -/
theorem of_ascii {P : Char → Prop} {c : Char} (small : c.toNat < 128)
    (all : ∀ k < 128, P (Char.ofNat k)) : P c := by
  have one := all c.toNat small
  rwa [Char.ofNat_toNat] at one

def avoids (c : Char) : Pattern → Bool
  | fail | empty => true
  | one accepts => !accepts c
  | seq p q | alt p q => p.avoids c && q.avoids c
  | many p => p.avoids c

theorem Matches.not_mem {p : Pattern} {xs : List Char} (h : Matches p xs) {c : Char}
    (avoided : p.avoids c = true) : c ∉ xs := by
  induction h with
  | empty | none => exact List.not_mem_nil
  | one accepted =>
      intro member
      cases List.mem_singleton.mp member
      simp [avoids, accepted] at avoided
  | seq _ _ first second =>
      obtain ⟨here, there⟩ := Bool.and_eq_true_iff.mp avoided
      exact fun member => (List.mem_append.mp member).elim (first here) (second there)
  | left _ side => exact side (Bool.and_eq_true_iff.mp avoided).1
  | right _ side => exact side (Bool.and_eq_true_iff.mp avoided).2
  | more _ _ first rest =>
      exact fun member => (List.mem_append.mp member).elim (first avoided) (rest avoided)

/-- Two patterns of one build, the second of which has at each place the kept characters of the
first. -/
inductive Narrows (keep : Char → Prop) : Pattern → Pattern → Prop
  | same (p : Pattern) : Narrows keep p p
  | one {a b : Char → Bool} (kept : ∀ c, a c = true → keep c → b c = true) :
      Narrows keep (one a) (one b)
  | seq {p p' q q' : Pattern} (first : Narrows keep p p') (second : Narrows keep q q') :
      Narrows keep (seq p q) (seq p' q')
  | alt {p p' q q' : Pattern} (first : Narrows keep p p') (second : Narrows keep q q') :
      Narrows keep (alt p q) (alt p' q')
  | many {p p' : Pattern} (round : Narrows keep p p') : Narrows keep (many p) (many p')

/-- A text of kept characters is matched by the narrow pattern just as by the wide one. -/
theorem Narrows.matches {keep : Char → Prop} {p q : Pattern} (narrows : Narrows keep p q)
    {xs : List Char} (h : Matches p xs) (kept : ∀ c ∈ xs, keep c) : Matches q xs := by
  induction h generalizing q with
  | empty =>
      cases narrows
      exact .empty
  | one accepted =>
      cases narrows with
      | same => exact .one accepted
      | one narrow => exact .one (narrow _ accepted (kept _ List.mem_cons_self))
  | seq first second ih ih' =>
      cases narrows with
      | same => exact .seq first second
      | seq n n' =>
          exact .seq (ih n fun c hc => kept c (List.mem_append_left _ hc))
            (ih' n' fun c hc => kept c (List.mem_append_right _ hc))
  | left side ih =>
      cases narrows with
      | same => exact .left side
      | alt n _ => exact .left (ih n kept)
  | right side ih =>
      cases narrows with
      | same => exact .right side
      | alt _ n => exact .right (ih n kept)
  | none =>
      cases narrows <;> exact .none
  | more first rest ih ih' =>
      cases narrows with
      | same => exact .more first rest
      | many n =>
          exact .more (ih n fun c hc => kept c (List.mem_append_left _ hc))
            (ih' (.many n) fun c hc => kept c (List.mem_append_right _ hc))

/-- Every class of characters in the pattern has a member among the samples. -/
def live (samples : List Char) : Pattern → Bool
  | fail => false
  | empty => true
  | one accepts => samples.any accepts
  | seq p q | alt p q => p.live samples && q.live samples
  | many p => p.live samples

/-- The text is the beginning of one that the pattern matches. -/
def Begins (p : Pattern) (xs : List Char) : Prop := ∃ ys, Matches p (xs ++ ys)

section

variable {p q : Pattern} {samples : List Char}

theorem live_begins (h : p.live samples = true) : p.Begins [] := by
  induction p with
  | fail => cases h
  | empty => exact ⟨[], .empty⟩
  | one accepts =>
      obtain ⟨c, _, accepted⟩ := List.any_eq_true.mp h
      exact ⟨[c], .one accepted⟩
  | seq p q hp hq =>
      obtain ⟨first, second⟩ := Bool.and_eq_true_iff.mp h
      obtain ⟨xs, first⟩ := hp first
      obtain ⟨ys, second⟩ := hq second
      exact ⟨xs ++ ys, show Matches (p.seq q) (xs ++ ys) from .seq first second⟩
  | alt p q hp _ =>
      obtain ⟨xs, side⟩ := hp (Bool.and_eq_true_iff.mp h).1
      exact ⟨xs, .left side⟩
  | many p _ => exact ⟨[], .none⟩

theorem live_andThen (hp : p = fail ∨ p.live samples = true) (hq : q.live samples = true) :
    p.andThen q = fail ∨ (p.andThen q).live samples = true := by
  cases p with
  | fail => exact .inl rfl
  | empty => exact .inr hq
  | one _ | seq _ _ | alt _ _ | many _ =>
      exact .inr (Bool.and_eq_true_iff.mpr ⟨hp.resolve_left (by simp), hq⟩)

theorem live_orElse (hp : p = fail ∨ p.live samples = true)
    (hq : q = fail ∨ q.live samples = true) :
    p.orElse q = fail ∨ (p.orElse q).live samples = true := by
  cases p with
  | fail => exact hq
  | empty | one _ | seq _ _ | alt _ _ | many _ =>
      have first := hp.resolve_left (by simp)
      cases q with
      | fail => exact .inr first
      | empty | one _ | seq _ _ | alt _ _ | many _ =>
          exact .inr (Bool.and_eq_true_iff.mpr ⟨first, hq.resolve_left (by simp)⟩)

theorem live_after (h : p.live samples = true) (c : Char) :
    p.after c = fail ∨ (p.after c).live samples = true := by
  induction p with
  | fail => cases h
  | empty => exact .inl rfl
  | one accepts =>
      rw [after]
      split
      · exact .inr rfl
      · exact .inl rfl
  | seq p q hp hq =>
      obtain ⟨left, right⟩ := Bool.and_eq_true_iff.mp h
      have first := live_andThen (hp left) right
      rw [after]
      split
      · exact live_orElse first (hq right)
      · exact first
  | alt p q hp hq =>
      obtain ⟨left, right⟩ := Bool.and_eq_true_iff.mp h
      exact live_orElse (hp left) (hq right)
  | many p hp => exact live_andThen (hp h) h

end

theorem begins_after (p : Pattern) (c : Char) (xs : List Char) :
    (p.after c).Begins xs ↔ p.Begins (c :: xs) :=
  exists_congr fun _ => matches_after p c _

theorem Begins.of_append {p : Pattern} {xs ys : List Char} (h : p.Begins (xs ++ ys)) :
    p.Begins xs := by
  obtain ⟨zs, matched⟩ := h
  exact ⟨ys ++ zs, List.append_assoc xs ys zs ▸ matched⟩

end GoFlow.Pattern
