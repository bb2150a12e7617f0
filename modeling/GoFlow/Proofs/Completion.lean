import GoFlow.Proofs.Balance
import GoFlow.Proofs.Drawing

/-! Drawing to the end. While a branch is open its condition stays among the lasts and among the
ends; so neither runs out as long as each else block ends in a run, and drawing can only stop for
want of firsts. -/

namespace GoFlow

/-- The marks stand on the stack one below the other, and none of them above the first. -/
def Marked : List Spot → List Tip → Prop
  | [], _ => True
  | c :: marks, stack => ∃ above below, stack = above ++ .spot c :: below ∧
      (∀ m ∈ c :: marks, Tip.spot m ∉ above) ∧ Marked marks below

namespace Marked

variable {marks : List Spot} {stack : List Tip} {x : Tip} {c : Spot}

theorem push (h : Marked marks stack) (other : ∀ m ∈ marks, x ≠ .spot m) :
    Marked marks (x :: stack) := by
  cases marks with
  | nil => trivial
  | cons c marks =>
      obtain ⟨above, below, rfl, free, rest⟩ := h
      refine ⟨x :: above, below, rfl, fun m hm member => ?_, rest⟩
      rcases List.mem_cons.mp member with h | h
      · exact other m hm h.symm
      · exact free m hm h

theorem drop (h : Marked marks (x :: stack)) (other : ∀ m ∈ marks, x ≠ .spot m) :
    Marked marks stack := by
  cases marks with
  | nil => trivial
  | cons c marks =>
      obtain ⟨above, below, split, free, rest⟩ := h
      cases above with
      | nil =>
          cases split
          exact absurd rfl (other c List.mem_cons_self)
      | cons y above =>
          cases split
          exact ⟨above, below, rfl, fun m hm member => free m hm (List.mem_cons_of_mem _ member),
            rest⟩

theorem erase (h : Marked marks stack) (other : ∀ m ∈ marks, x ≠ .spot m) :
    Marked marks (stack.erase x) := by
  induction marks generalizing stack with
  | nil => trivial
  | cons c marks ih =>
      obtain ⟨above, below, rfl, free, rest⟩ := h
      have outside : Tip.spot c ≠ x := fun h => other c List.mem_cons_self h.symm
      by_cases member : x ∈ above
      · rw [List.erase_append_left _ member]
        exact ⟨above.erase x, below, rfl, fun m hm h => free m hm (List.mem_of_mem_erase h), rest⟩
      · rw [List.erase_append_right _ member, List.erase_cons_tail (by simpa using outside)]
        exact ⟨above, below.erase x, rfl, free, ih rest fun m hm =>
          other m (List.mem_cons_of_mem _ hm)⟩

theorem addTo (h : Marked marks stack) (other : ∀ m ∈ marks, x ≠ .spot m) :
    Marked marks (x.addTo stack) := by
  cases stack with
  | nil => exact h.push other
  | cons y ys =>
      rw [Tip.addTo]
      split
      · exact h
      · exact h.push other

theorem ne_nil (h : Marked (c :: marks) stack) : stack ≠ [] := by
  obtain ⟨above, below, rfl, _⟩ := h
  simp

theorem tail (h : Marked (c :: marks) stack) (single : c ∉ marks) : Marked marks stack := by
  obtain ⟨above, below, rfl, free, rest⟩ := h
  have free' : ∀ m ∈ marks, ∀ x ∈ above, x ≠ .spot m :=
    fun m hm x hx same => free m (List.mem_cons_of_mem _ hm) (same ▸ hx)
  clear free
  induction above with
  | nil =>
      refine rest.push fun m hm same => ?_
      cases same
      exact single hm
  | cons y above ih =>
      exact (ih fun m hm x hx => free' m hm x (List.mem_cons_of_mem _ hx)).push
        fun m hm => free' m hm y List.mem_cons_self

/-- The first mark is taken away with whatever is on top, and the others stay. -/
theorem leave (h : Marked (c :: marks) (x :: stack)) (single : c ∉ marks) :
    Marked marks stack ∧ ∀ m ∈ marks, x ≠ .spot m := by
  have other : ∀ m ∈ marks, x ≠ .spot m := by
    intro m hm same
    obtain ⟨above, below, split, free, _⟩ := h
    cases above with
    | nil =>
        cases split
        cases same
        exact single hm
    | cons y above =>
        cases split
        exact free m (List.mem_cons_of_mem _ hm) (same ▸ List.mem_cons_self)
  exact ⟨(h.tail single).drop other, other⟩

end Marked

namespace Sketch

/-- The condition of a branch has just been made, and the branch is still empty. -/
def Waits (marks : List Spot) (base : List Tip) (d : Sketch) : Prop :=
  ∃ c marks' rest under, marks = c :: marks' ∧ c.role = .condition ∧ d.lasts = .spot c :: rest ∧
    (Tip.spot c).addTo rest = .spot c :: rest ∧ Marked marks' rest ∧ d.ends = base ∧
    base = .spot c :: under

/-- Something has been drawn since the last mark: it is on top of the lasts, and above the base of
the ends. -/
structure Stocked (marks : List Spot) (base : List Tip) (d : Sketch) : Prop where
  top : ∃ x rest, d.lasts = x :: rest ∧ ∀ m ∈ marks, x ≠ .spot m
  marked : Marked marks d.lasts
  above : ∃ x above, d.ends = x :: (above ++ base)
  newest : ∃ n, d.nodes.getLast? = some n ∧ ∀ m ∈ marks, m.number < n.number

/-- The conditions of the open branches are the marks; the base are the ends before the innermost
block. -/
structure Grounded (marks : List Spot) (base : List Tip) (d : Sketch) : Prop where
  tidy : d.Tidy
  known : ∀ y ∈ d.lasts, Known d.count y
  bounded : ∀ m ∈ marks, m.number ≤ d.count
  nodup : marks.Nodup
  phase : d.Waits marks base ∨ d.Stocked marks base

structure Same (d d' : Sketch) : Prop where
  level : d'.level = d.level
  branches : d'.branches = d.branches
  loops : d'.loops = d.loops

theorem Same.trans {d d' d'' : Sketch} (h : Same d d') (h' : Same d' d'') : Same d d'' :=
  ⟨h'.level.trans h.level, h'.branches.trans h.branches, h'.loops.trans h.loops⟩

variable {d d' : Sketch} {marks : List Spot} {base : List Tip}

theorem spot_ne_of_lt {s t : Spot} (less : t.number < s.number) : Tip.spot s ≠ .spot t := by
  rintro ⟨⟩
  exact Nat.lt_irrefl _ less

/-- The next node goes on top of what is there, with the marks and the base below it. -/
theorem Grounded.opens (h : d.Grounded marks base) :
    ∃ ports below above, d.Opens ports below (above ++ base) ∧
    Marked marks below ∧ ∀ y ∈ below, Known d.count y := by
  rcases h.phase with ⟨c, marks', rest, under, rfl, role, lasts, new, marked, ends, _⟩ | stocked
  · have opens := opens_condition lasts role
    rw [new, ends] at opens
    refine ⟨[], .spot c :: rest, [], opens, ⟨[], rest, rfl, fun _ _ => List.not_mem_nil, marked⟩,
      ?_⟩
    exact lasts ▸ h.known
  · obtain ⟨x, rest, lasts, other⟩ := stocked.top
    obtain ⟨e, above, ends⟩ := stocked.above
    have marked : Marked marks rest := (lasts ▸ stocked.marked).drop other
    have known := h.known
    rw [lasts] at known
    cases apart : d.apart x with
    | false =>
        exact ⟨e.ports, rest, above, ⟨x, rest, lasts, .inl ⟨apart, rfl, e, ends, rfl⟩⟩, marked,
          fun y hy => known y (List.mem_cons_of_mem _ hy)⟩
    | true =>
        refine ⟨[], x.addTo rest, e :: above, ⟨x, rest, lasts, .inr ⟨apart, rfl, ends, rfl⟩⟩,
          marked.addTo other, fun y hy => known y ?_⟩
        exact List.mem_cons.mpr (mem_addTo hy)

/-- Where an else branch is taken to begin, at least one end stays above the base. -/
theorem Grounded.opensElse {c : Spot} {under : List Tip} {rest : List (Int × Branches)}
    (h : d.Grounded marks (.spot c :: under)) (stocked : d.Stocked marks (.spot c :: under))
    (role : c.role = .condition) (branches : d.branches = (d.level, .thenElse) :: rest) :
    ∃ ports below y above, d.Opens ports below (y :: above ++ .spot c :: under) ∧
      Marked marks below ∧
      ∀ y ∈ below, Known d.count y := by
  obtain ⟨ports, below, above, opens, marked, known⟩ := h.opens
  cases above with
  | cons y above => exact ⟨ports, below, y, above, opens, marked, known⟩
  | nil =>
      obtain ⟨x, lasts, split, ⟨joined, _, e, ends, _⟩ | ⟨_, _, ends, _⟩⟩ := opens
      · have begins : d.beginsElse = true := by
          simp [beginsElse, branches, ends, Tip.spot, Tip.hasRole, Port.spot, role]
        rw [apart, begins] at joined
        simp at joined
      · obtain ⟨x, above, ends'⟩ := stocked.above
        have lengths := congrArg List.length (ends.symm.trans ends')
        simp only [List.nil_append, List.length_cons, List.length_append] at lengths
        omega

structure Placed (marks : List Spot) (base : List Tip) (s : Spot) (d d' : Sketch) : Prop where
  grounded : d'.Grounded marks base
  stocked : d'.Stocked marks base
  same : Same d d'
  held : d'.held = d.held
  last : ∃ below, d'.lasts = .spot s :: below ∧ Marked marks below ∧ ∀ y ∈ below, Known d.count y
  newest : d'.nodes.getLast? = some s
  number : s.number = d'.count ∧ d'.count = d.count + 1
  firsts : d'.firsts = d.firsts

theorem Grounded.placeOn {ports : List Port} {below above : List Tip} (h : d.Grounded marks base)
    (opens : d.Opens ports below (above ++ base)) (marked : Marked marks below)
    (known : ∀ y ∈ below, Known d.count y) (role : Role) (text shape : String) :
    ∃ d', d.place role text shape = some d' ∧ Placed marks base ⟨role, d.count + 1⟩ d d' ∧
      d'.ends = .spot ⟨role, d.count + 1⟩ :: (above ++ base) := by
  have placed := opens.place role text shape
  obtain ⟨tidy, firsts, held, count, newest⟩ := h.tidy.place placed
  have newer : ∀ m ∈ marks, m.number < d.count + 1 := fun m hm => Nat.lt_succ_of_le (h.bounded m hm)
  have other : ∀ m ∈ marks, Tip.spot ⟨role, d.count + 1⟩ ≠ .spot m :=
    fun m hm => spot_ne_of_lt (newer m hm)
  have stocked : (d.putting ⟨role, d.count + 1⟩ text shape ports below (above ++ base)).Stocked
      marks base :=
    ⟨⟨_, _, rfl, other⟩, marked.push other, ⟨_, above, rfl⟩, ⟨_, newest, newer⟩⟩
  exact ⟨_, placed,
    ⟨⟨tidy, known_push known rfl, fun m hm => (newer m hm).le, h.nodup, .inr stocked⟩, stocked,
    ⟨rfl, rfl, rfl⟩, held, ⟨below, rfl, marked, known⟩, newest, ⟨rfl, count⟩, firsts⟩, rfl⟩

theorem Grounded.place (h : d.Grounded marks base) (role : Role) (text shape : String) :
    ∃ d' above, d.place role text shape = some d' ∧ Placed marks base ⟨role, d.count + 1⟩ d d' ∧
      d'.ends = .spot ⟨role, d.count + 1⟩ :: (above ++ base) := by
  obtain ⟨ports, below, above, opens, marked, known⟩ := h.opens
  obtain ⟨d', placed⟩ := h.placeOn opens marked known role text shape
  exact ⟨d', above, placed⟩

theorem Stocked.congr (h : d.Stocked marks base) (nodes : d'.nodes = d.nodes)
    (lasts : d'.lasts = d.lasts) (ends : d'.ends = d.ends) : d'.Stocked marks base :=
  ⟨lasts ▸ h.top, lasts ▸ h.marked, ends ▸ h.above, nodes ▸ h.newest⟩

theorem Grounded.congr (h : d.Grounded marks base) (tidy : d'.Tidy) (nodes : d'.nodes = d.nodes)
    (count : d'.count = d.count) (lasts : d'.lasts = d.lasts) (ends : d'.ends = d.ends) :
    d'.Grounded marks base where
  tidy := tidy
  known := by rw [lasts, count]; exact h.known
  bounded := by rw [count]; exact h.bounded
  nodup := h.nodup
  phase := h.phase.imp (fun waits => by rw [Waits, lasts, ends]; exact waits)
    fun stocked => stocked.congr nodes lasts ends

/-- Something has been drawn, or will be with the next flush. -/
def Supplied (marks : List Spot) (base : List Tip) (d : Sketch) : Prop :=
  d.Stocked marks base ∨ d.held ≠ ""

theorem Grounded.flush (h : d.Grounded marks base) :
    ∃ d', d.flush = some d' ∧ d'.Grounded marks base ∧
    Same d d' ∧ d'.held = "" ∧ d'.firsts = d.firsts ∧
      (d.Supplied marks base → d'.Stocked marks base) := by
  by_cases held : d.held = ""
  · exact ⟨d, flush_held held, h, ⟨rfl, rfl, rfl⟩, held, rfl,
      fun supplied => supplied.resolve_right (not_not_intro held)⟩
  · obtain ⟨d', _, placed, made, _⟩ := h.place d.blockRole d.held "box"
    refine ⟨{ d' with held := "" }, ?_, ?_, ⟨made.same.level, made.same.branches, made.same.loops⟩,
      rfl, made.firsts, fun _ => made.stocked.congr rfl rfl rfl⟩
    · rw [Sketch.flush, if_neg held, placed, Option.map_some]
    · exact made.grounded.congr (made.grounded.tidy.mono rfl le_rfl (.refl _)) rfl rfl rfl rfl

theorem Grounded.lower (h : d.Grounded marks base) : d.lower.Grounded marks base :=
  h.congr (h.tidy.mono rfl le_rfl (.refl _)) rfl rfl rfl rfl

/-- An else branch ends with a node that stands above two ends. -/
theorem Grounded.flushElse {c : Spot} {under : List Tip} {rest : List (Int × Branches)}
    (h : d.Grounded marks (.spot c :: under)) (stocked : d.Stocked marks (.spot c :: under))
    (role : c.role = .condition) (branches : d.branches = (d.level, .thenElse) :: rest)
    (held : d.held ≠ "") :
    ∃ d' x y above, d.flush = some d' ∧ d'.Grounded marks (.spot c :: under) ∧
      d'.Stocked marks (.spot c :: under) ∧ Same d d' ∧ d'.held = "" ∧
      d'.ends = x :: y :: (above ++ .spot c :: under) := by
  obtain ⟨ports, below, y, above, opens, marked, known⟩ := h.opensElse stocked role branches
  obtain ⟨d', placed, made, ends⟩ := h.placeOn opens marked known d.blockRole d.held "box"
  refine ⟨{ d' with held := "" }, _, y, above, ?_, ?_, made.stocked.congr rfl rfl rfl,
    ⟨made.same.level, made.same.branches, made.same.loops⟩, rfl, ends⟩
  · rw [Sketch.flush, if_neg held, placed, Option.map_some]
  · exact made.grounded.congr (made.grounded.tidy.mono rfl le_rfl (.refl _)) rfl rfl rfl rfl

theorem Tidy.next (tidy : d.Tidy) (fresh : d.Fresh) {s : Spot} (member : s ∈ d.firsts) :
    ∃ t, d.next? s = some t := by
  obtain ⟨n, newest, _, newer⟩ := fresh
  have less := newer s member
  have within : d.nodes.idxOf s < d.nodes.length :=
    List.idxOf_lt_length_iff.mpr (tidy.made s member)
  have more : d.nodes.idxOf s + 1 < d.nodes.length := by
    by_contra last
    rw [List.getLast?_eq_getElem?, show d.nodes.length - 1 = d.nodes.idxOf s by omega,
      List.getElem?_eq_getElem within, List.getElem_idxOf] at newest
    cases newest
    exact Nat.lt_irrefl _ less
  exact ⟨_, List.getElem?_eq_getElem more⟩

theorem firsts_of_takeTwo {n : Nat} (taken : takeTwo d.firsts.length = some n) :
    ∃ s t rest, d.firsts = s :: t :: rest := by
  unfold takeTwo at taken
  split at taken
  · rename_i two
    match firsts : d.firsts with
    | s :: t :: rest => exact ⟨s, t, rest, rfl⟩
    | [_] => simp [firsts] at two
    | [] => simp [firsts] at two
  · cases taken

theorem addTo_top_ne {x : Tip} (other : ∀ m ∈ marks, x ≠ .spot m) (stack : List Tip) :
    ∃ y rest, x.addTo stack = y :: rest ∧ ∀ m ∈ marks, y ≠ .spot m := by
  cases stack with
  | nil => exact ⟨x, [], rfl, other⟩
  | cons y ys =>
      rw [Tip.addTo]
      split
      · rename_i present
        refine ⟨y, ys, rfl, fun m hm same => ?_⟩
        subst same
        simp only [Tip.spot, Tip.members, List.contains_nil, Bool.false_or, beq_iff_eq] at present
        exact other m hm present.symm
      · exact ⟨x, y :: ys, rfl, other⟩

/-- A statement has been left: its marks are gone, and something is above what was there before
it. -/
structure Left (marks : List Spot) (under : List Tip) (d d' : Sketch) : Prop where
  top : ∃ x rest, d'.lasts = x :: rest ∧ ∀ m ∈ marks, x ≠ .spot m
  marked : Marked marks d'.lasts
  known : ∀ y ∈ d'.lasts, Known d.count y
  above : ∃ x above, d'.ends = x :: (above ++ under)
  nodes : d'.nodes = d.nodes
  count : d.count ≤ d'.count
  level : d'.level = d.level

theorem above_of_drop {x : Tip} {stack above under : List Tip} {c : Tip}
    (h : x :: stack = above ++ c :: under) : ∃ above', stack = above' ++ under := by
  cases above with
  | nil =>
      cases h
      exact ⟨[], rfl⟩
  | cons y above =>
      cases h
      exact ⟨above ++ [c], by simp⟩

theorem leaveIf_eq {kind : Branches} {branch : Int × Branches} {branches : List (Int × Branches)}
    (left : (match kind with
      | .thenElse => d.leaveIfElse
      | .thenOnly => d.leaveIfThen) = some d')
    (h : d'.branches = branch :: branches) : d.leaveIf kind = some { d' with branches } := by
  have popped : d'.popBranch = some { d' with branches } := by simp only [popBranch, h]
  cases kind with
  | thenElse => exact (congrArg (·.bind popBranch) left).trans popped
  | thenOnly => exact (congrArg (·.bind popBranch) left).trans popped

theorem known_addTo {x z : Tip} {n : Nat} {stack : List Tip} (known : Known n x)
    (rest : ∀ y ∈ stack, Known n y) : ∀ y ∈ x.addTo (stack.erase z), Known n y := by
  intro y hy
  rcases mem_addTo hy with rfl | old
  · exact known
  · exact rest y (List.mem_of_mem_erase old)

theorem Grounded.leaveIfElse {c : Spot} {under above : List Tip} {x y : Tip} {n : Nat}
    {branch : Int × Branches} {branches : List (Int × Branches)}
    (h : d.Grounded (c :: marks) (.spot c :: under))
    (stocked : d.Stocked (c :: marks) (.spot c :: under))
    (ends : d.ends = x :: y :: (above ++ .spot c :: under)) (fresh : d.Fresh)
    (taken : takeTwo d.firsts.length = some n) (hbranches : d.branches = branch :: branches) :
    ∃ d', d.leaveIf .thenElse = some d' ∧ Left marks under d d' ∧ d'.branches = branches ∧
      d'.loops = d.loops := by
  obtain ⟨s, t, rest, firsts⟩ := firsts_of_takeTwo taken
  obtain ⟨e, nextElse⟩ := h.tidy.next fresh (s := s) (by simp [firsts])
  obtain ⟨f, nextThen⟩ := h.tidy.next fresh (s := t) (by simp [firsts])
  obtain ⟨no, lasts, hlasts, other⟩ := stocked.top
  have marked : Marked (c :: marks) lasts := (hlasts ▸ stocked.marked).drop other
  obtain ⟨yes, lasts, rfl⟩ := List.exists_cons_of_ne_nil marked.ne_nil
  obtain ⟨marked, otherYes⟩ := marked.leave (List.nodup_cons.mp h.nodup).1
  obtain ⟨z, ends', split⟩ :=
    List.exists_cons_of_ne_nil (show above ++ .spot c :: under ≠ [] by simp)
  obtain ⟨above', rfl⟩ := above_of_drop split.symm
  rw [split] at ends
  have left : d.leaveIf .thenElse = _ :=
    leaveIf_eq (leaveIfElse_eq firsts nextElse nextThen hlasts ends) hbranches
  have known := h.known
  rw [hlasts, List.forall_mem_cons, List.forall_mem_cons] at known
  have otherGroup : ∀ m ∈ marks, Tip.group [yes, no] ≠ .spot m := nofun
  refine ⟨_, left, ⟨addTo_top_ne otherGroup _, (marked.erase otherYes).addTo otherGroup,
    known_addTo ?_ known.2.2, ⟨_, above', rfl⟩, rfl, le_rfl, rfl⟩, rfl, rfl⟩
  intro p hp
  simp only [Tip.ports, Tip.portsAll, List.append_nil, List.mem_append] at hp
  exact hp.elim (known.2.1 p) (known.1 p)

theorem Grounded.leaveIfThen {c : Spot} {under above : List Tip} {x : Tip} {n : Nat}
    {branch : Int × Branches} {branches : List (Int × Branches)}
    (h : d.Grounded (c :: marks) (.spot c :: under))
    (stocked : d.Stocked (c :: marks) (.spot c :: under))
    (ends : d.ends = x :: (above ++ .spot c :: under)) (fresh : d.Fresh)
    (taken : takeTwo d.firsts.length = some n) (hbranches : d.branches = branch :: branches) :
    ∃ d', d.leaveIf .thenOnly = some d' ∧ Left marks under d d' ∧ d'.branches = branches ∧
      d'.loops = d.loops := by
  obtain ⟨s, t, rest, firsts⟩ := firsts_of_takeTwo taken
  obtain ⟨e, passed⟩ := h.tidy.next fresh (s := s) (by simp [firsts])
  obtain ⟨f, nextThen⟩ := h.tidy.next fresh (s := t) (by simp [firsts])
  obtain ⟨yes, lasts, hlasts, _⟩ := stocked.top
  obtain ⟨marked, other⟩ := (hlasts ▸ stocked.marked).leave (List.nodup_cons.mp h.nodup).1
  obtain ⟨z, ends', split⟩ :=
    List.exists_cons_of_ne_nil (show above ++ .spot c :: under ≠ [] by simp)
  obtain ⟨above', rfl⟩ := above_of_drop split.symm
  rw [split] at ends
  have left : d.leaveIf .thenOnly = _ :=
    leaveIf_eq (leaveIfThen_eq firsts passed nextThen hlasts ends) hbranches
  have known := h.known
  rw [hlasts, List.forall_mem_cons] at known
  exact ⟨_, left,
    ⟨addTo_top_ne other _, (marked.erase other).addTo other, known_addTo known.1 known.2,
    ⟨_, above', rfl⟩, rfl, le_rfl, rfl⟩, rfl, rfl⟩

theorem Grounded.leaveFor {under above : List Tip} {x : Tip} {n : Int} {loops : List Int}
    (h : d.Grounded marks base) (stocked : d.Stocked marks base)
    (ends : d.ends = x :: (above ++ under)) (fresh : d.Fresh) (left : d.firsts ≠ [])
    (hloops : d.loops = n :: loops) :
    ∃ d', d.leaveFor = some d' ∧ Left marks under d d' ∧ d'.branches = d.branches ∧
      d'.loops = loops := by
  obtain ⟨s, rest, firsts⟩ := List.exists_cons_of_ne_nil left
  obtain ⟨first, next⟩ := h.tidy.next fresh (s := s) (by simp [firsts])
  obtain ⟨last, lasts, hlasts, other⟩ := stocked.top
  have marked : Marked marks lasts := (hlasts ▸ stocked.marked).drop other
  have left := leaveFor_eq hloops firsts next hlasts ends
  obtain ⟨count, _, _, le, _, closed⟩ := closeLoop_frame last s { d with
    loops
    firsts := rest
    lasts := lasts.erase last
    strokes := d.strokes ++ [.edge (.south s) first []] }
  rw [closed] at left
  have known := h.known
  rw [hlasts, List.forall_mem_cons] at known
  have otherEast : ∀ m ∈ marks, Tip.port (.east s) ≠ .spot m := nofun
  refine ⟨_, left, ⟨addTo_top_ne otherEast _, (marked.erase other).addTo otherEast,
    known_addTo ?_ known.2, ⟨_, above, rfl⟩, rfl, le, rfl⟩, rfl, rfl⟩
  intro p hp
  cases List.mem_singleton.mp hp
  exact h.tidy.firsts_le s (by simp [firsts])

/-- What holds before a statement holds again after it. -/
theorem Left.grounded {above : List Tip} (left : Left marks (above ++ base) d d') (tidy : d'.Tidy)
    (bounded : ∀ m ∈ marks, m.number ≤ d.count) (nodup : marks.Nodup)
    (newest : ∃ n, d.nodes.getLast? = some n ∧ ∀ m ∈ marks, m.number < n.number) :
    d'.Grounded marks base ∧ d'.Stocked marks base := by
  obtain ⟨x, more, ends⟩ := left.above
  have stocked : d'.Stocked marks base :=
    ⟨left.top, left.marked, ⟨x, more ++ above, by rw [ends, List.append_assoc]⟩,
      left.nodes ▸ newest⟩
  exact ⟨⟨tidy, fun y hy => known_mono (left.known y hy) left.count,
    fun m hm => (bounded m hm).trans left.count, nodup, .inr stocked⟩, stocked⟩

theorem Grounded.enterThen {ports : List Port} {below under : List Tip} (h : d.Grounded marks base)
    (held : d.held = "") (opens : d.Opens ports below under) (marked : Marked marks below)
    (known : ∀ y ∈ below, Known d.count y) (condition : String) (kind : Branches) :
    ∃ c d', (d.enterIf condition kind).bind Sketch.enterBlock = some d' ∧ c.role = .condition ∧
      d'.Grounded (c :: marks) (.spot c :: under) ∧ d'.held = "" ∧ d'.level = d.level + 1 ∧
      d'.branches = (d.level, kind) :: d.branches ∧ d'.loops = d.loops ∧
      d'.firsts.length = d.firsts.length + 1 := by
  have entered := opens.enterThen held h.tidy.firsts_le condition kind
  have newer : ∀ m ∈ marks, m.number < d.count + 1 := fun m hm => Nat.lt_succ_of_le (h.bounded m hm)
  have new : (Tip.spot ⟨.condition, d.count + 1⟩).addTo below =
      .spot ⟨.condition, d.count + 1⟩ :: below :=
    addTo_new known ⟨_, List.mem_singleton_self _, Nat.lt_succ_self _⟩
  refine ⟨⟨.condition, d.count + 1⟩, _, entered, rfl,
    ⟨(h.tidy.enterThen entered).1, known_push known rfl, ?_, ?_, .inl ?_⟩, held, rfl, rfl, rfl, rfl⟩
  · exact List.forall_mem_cons.mpr ⟨le_rfl, fun m hm => (newer m hm).le⟩
  · exact List.nodup_cons.mpr ⟨fun member => Nat.lt_irrefl _ (newer _ member), h.nodup⟩
  · exact ⟨_, marks, below, under, rfl, rfl, rfl, new, marked, rfl, rfl⟩

theorem Grounded.enterLoop {ports : List Port} {below under : List Tip}
    (h : d.Grounded marks base) (held : d.held = "") (opens : d.Opens ports below under)
    (marked : Marked marks below) (known : ∀ y ∈ below, Known d.count y) (condition : String) :
    ∃ d', (d.enterFor condition).bind Sketch.enterBlock = some d' ∧ d'.Grounded marks under ∧
      d'.level = d.level + 1 ∧ d'.branches = d.branches ∧
      d'.loops = ((d.count + 1 : Nat) : Int) :: d.loops ∧
      d'.firsts.length = d.firsts.length + 1 := by
  have entered := opens.enterLoop held h.tidy.firsts_le condition
  have newer : ∀ m ∈ marks, m.number < d.count + 1 := fun m hm => Nat.lt_succ_of_le (h.bounded m hm)
  have other : ∀ m ∈ marks, Tip.spot ⟨.loop, d.count + 1⟩ ≠ .spot m :=
    fun m hm => spot_ne_of_lt (newer m hm)
  refine ⟨_, entered,
    ⟨(h.tidy.enterLoop entered).1, known_push known rfl, fun m hm => (newer m hm).le, h.nodup,
    .inr ⟨⟨_, _, rfl, other⟩, marked.push other, ⟨_, [], rfl⟩,
    ⟨⟨.loop, d.count + 1⟩, by simp [putting], newer⟩⟩⟩, rfl, rfl, rfl, rfl⟩

theorem Grounded.enterElse {s : Spot} (h : d.Grounded marks base) (stocked : d.Stocked marks base)
    (newest : d.nodes.getLast? = some s) (statement : s.role ≠ .entry)
    (newer : ∀ t ∈ d.firsts, t.number < s.number) :
    ∃ d', d.enterBlock = some d' ∧ d'.Grounded marks base ∧ d'.Stocked marks base ∧
      d'.level = d.level + 1 ∧ d'.branches = d.branches ∧ d'.loops = d.loops := by
  have entered : d.enterBlock = some _ := congrArg (Option.map _) newest
  have tidy := (h.tidy.enterBlock newest newer statement entered).1
  obtain ⟨t, newest', newerMarks⟩ := stocked.newest
  cases Option.some.inj (newest.symm.trans newest')
  have other : ∀ m ∈ marks, Tip.spot s ≠ .spot m := fun m hm => spot_ne_of_lt (newerMarks m hm)
  have known : Known d.count (.spot s) := by
    intro p hp
    cases List.mem_singleton.mp hp
    exact h.tidy.bounded s (List.mem_of_getLast? newest)
  have stocked' : Stocked marks base { d with
      level := d.level + 1
      firsts := if s.role = .entry then d.firsts else s.addTo d.firsts
      lasts := (Tip.spot s).addTo d.lasts } :=
    ⟨addTo_top_ne other _, stocked.marked.addTo other, stocked.above, stocked.newest⟩
  refine ⟨_, entered, ⟨tidy, ?_, h.bounded, h.nodup, .inr stocked'⟩, stocked', rfl, rfl, rfl⟩
  intro y hy
  rcases mem_addTo hy with rfl | old
  · exact known
  · exact h.known y old

end Sketch

open Sketch

/-- Drawing the body goes through if the firsts suffice. -/
def Body.DrawsIfBalanced (b : Body) : Prop :=
  ∀ (d : Sketch) (marks : List Spot) (base : List Tip) (n : Nat), d.Grounded marks base →
    b.balance d.firsts.length = some n → ∃ d', b.draw d = some d' ∧ d'.Grounded marks base ∧
    Same d d' ∧
      (d.Stocked marks base → d'.Stocked marks base) ∧
      (d.Supplied marks base ∨ b.hasRun = true → d'.Supplied marks base) ∧
      (b.endsInRun = true → d'.held ≠ "")

/-- So does drawing an else branch, and it leaves two ends above the condition. -/
def Otherwise.DrawsIfBalanced (no : Otherwise) : Prop :=
  ∀ (d : Sketch) (marks : List Spot) (c : Spot) (under : List Tip)
    (rest : List (Int × Branches)) (n : Nat),
    d.Grounded marks (.spot c :: under) → d.Stocked marks (.spot c :: under) → d.Fresh →
    d.held = "" → c.role = .condition → d.branches = (d.level, .thenElse) :: rest →
    no.balance d.firsts.length = some n → ∃ d' x y above, no.draw d = some d' ∧
      d'.Grounded marks (.spot c :: under) ∧ d'.Stocked marks (.spot c :: under) ∧ Same d d' ∧
      d'.held = "" ∧ d'.ends = x :: y :: (above ++ .spot c :: under)

variable {d : Sketch} {marks : List Spot} {base : List Tip}

theorem Body.DrawsIfBalanced.finish {b : Body} {n : Nat} (draws : b.DrawsIfBalanced)
    (filled : b.hasRun = true) (h : d.Grounded marks base)
    (balance : b.balance d.firsts.length = some n) :
    ∃ d', b.finish d = some d' ∧ d'.Grounded marks base ∧ d'.Stocked marks base ∧ d'.held = "" ∧
      d'.level = d.level - 1 ∧ d'.branches = d.branches ∧ d'.loops = d.loops := by
  obtain ⟨d₁, drew, grounded, same, _, supplied, _⟩ := draws d marks base n h balance
  obtain ⟨d', flushed, grounded', same', held, _, stocked⟩ := grounded.lower.flush
  refine ⟨d', ?_, grounded', stocked ?_, held, ?_, same'.branches.trans same.branches,
    same'.loops.trans same.loops⟩
  · rw [Body.finish, drew]
    exact flushed
  · exact (supplied (.inr filled)).imp (fun stocked => stocked.congr rfl rfl rfl) id
  · rw [same'.level, ← same.level]
    rfl

theorem Body.DrawsIfBalanced.finishElse {b : Body} {n : Nat} {c : Spot} {under : List Tip}
    {rest : List (Int × Branches)} (draws : b.DrawsIfBalanced) (closed : b.endsInRun = true)
    (h : d.Grounded marks (.spot c :: under)) (stocked : d.Stocked marks (.spot c :: under))
    (role : c.role = .condition) (branches : d.branches = (d.level - 1, .thenElse) :: rest)
    (balance : b.balance d.firsts.length = some n) :
    ∃ d' x y above, b.finish d = some d' ∧ d'.Grounded marks (.spot c :: under) ∧
      d'.Stocked marks (.spot c :: under) ∧ d'.held = "" ∧ d'.level = d.level - 1 ∧
      d'.branches = d.branches ∧ d'.loops = d.loops ∧
      d'.ends = x :: y :: (above ++ .spot c :: under) := by
  obtain ⟨d₁, drew, grounded, same, stays, _, held⟩ := draws d marks _ n h balance
  have level : d₁.lower.level = d.level - 1 := congrArg (· - 1) same.level
  have branches₁ : d₁.lower.branches = (d₁.lower.level, .thenElse) :: rest := by
    rw [level, ← branches]
    exact same.branches
  obtain ⟨d', x, y, above, flushed, grounded', stocked', same', held', ends⟩ :=
    grounded.lower.flushElse ((stays stocked).congr rfl rfl rfl) role branches₁ (held closed)
  refine ⟨d', x, y, above, ?_, grounded', stocked', held', same'.level.trans level,
    same'.branches.trans same.branches, same'.loops.trans same.loops, ends⟩
  rw [Body.finish, drew]
  exact flushed

theorem Sketch.Grounded.closeIf {no : Otherwise} {c : Spot} {under : List Tip} {m n : Nat}
    {rest : List (Int × Branches)} (h : d.Grounded (c :: marks) (.spot c :: under))
    (stocked : d.Stocked (c :: marks) (.spot c :: under)) (fresh : d.Fresh) (held : d.held = "")
    (role : c.role = .condition) (branches : d.branches = (d.level, no.branches) :: rest)
    (draws : no ≠ .nothing → no.DrawsIfBalanced) (counts : no.Counts)
    (balance : no.balance d.firsts.length = some m) (taken : takeTwo m = some n) :
    ∃ d₁ d', no.draw d = some d₁ ∧ d₁.leaveIf no.branches = some d' ∧ Left marks under d₁ d' ∧
      d₁.Grounded (c :: marks) (.spot c :: under) ∧ d₁.Stocked (c :: marks) (.spot c :: under) ∧
      d'.level = d.level ∧ d'.branches = rest ∧ d'.loops = d.loops := by
  by_cases alone : no = .nothing
  · subst alone
    cases balance
    obtain ⟨x, above, ends⟩ := stocked.above
    obtain ⟨d', left, after, branches', loops⟩ := h.leaveIfThen stocked ends fresh taken branches
    exact ⟨d, d', rfl, left, after, h, stocked, after.level, branches', loops⟩
  · have kind : no.branches = .thenElse := by
      cases no with
      | nothing => exact absurd rfl alone
      | block body => rfl
      | elseIf condition yes no => rfl
    rw [kind] at branches ⊢
    obtain ⟨d₁, x, y, above, drew, h₁, stocked₁, same, _, ends⟩ :=
      draws alone d _ c under rest m h stocked fresh held role branches balance
    obtain ⟨_, fresh₁, _, balance₁⟩ := counts d d₁ h.tidy fresh held drew
    rw [← Option.some.inj (balance₁.symm.trans balance)] at taken
    obtain ⟨d', left, after, branches', loops⟩ :=
      h₁.leaveIfElse stocked₁ ends fresh₁ taken (same.branches.trans branches)
    exact ⟨d₁, d', drew, left, after, h₁, stocked₁, after.level.trans same.level, branches',
      loops.trans same.loops⟩

theorem Sketch.Grounded.drawsIf {yes : Body} {no : Otherwise} {ports : List Port}
    {below above : List Tip} {n : Nat} (h : d.Grounded marks base) (held : d.held = "")
    (opens : d.Opens ports below (above ++ base)) (marked : Marked marks below)
    (known : ∀ y ∈ below, Known d.count y) (drawsYes : yes.DrawsIfBalanced)
    (countsYes : yes.Counts) (filled : yes.hasRun = true)
    (drawsNo : no ≠ .nothing → no.DrawsIfBalanced) (countsNo : no.Counts)
    (balance : balanceIf yes no d.firsts.length = some n) (condition : String) :
    ∃ d' x more, drawIf condition yes no d = some d' ∧ d'.Grounded marks base ∧
      d'.Stocked marks base ∧
      Same d d' ∧ d'.held = "" ∧ d'.ends = x :: (more ++ (above ++ base)) := by
  obtain ⟨l, balanceYes, balance⟩ := Option.bind_eq_some_iff.mp balance
  obtain ⟨m, balanceNo, taken⟩ := Option.bind_eq_some_iff.mp balance
  obtain ⟨c, d₁, entered, role, h₁, held₁, level₁, branches₁, loops₁, length₁⟩ :=
    h.enterThen held opens marked known condition no.branches
  rw [← length₁] at balanceYes
  obtain ⟨d₂, finished, h₂, stocked₂, held₂, level₂, branches₂, loops₂⟩ :=
    drawsYes.finish filled h₁ balanceYes
  obtain ⟨_, fresh₂, _, length₂⟩ := countsYes.finish filled h₁.tidy finished
  have branches : d₂.branches = (d₂.level, no.branches) :: d.branches := by
    rw [branches₂, branches₁, level₂, level₁, Int.add_sub_cancel]
  rw [Option.some.inj (balanceYes.symm.trans length₂)] at balanceNo
  obtain ⟨d₃, d', drewNo, left, after, h₃, stocked₃, level', branches', loops'⟩ :=
    h₂.closeIf stocked₂ fresh₂ held₂ role branches drawsNo countsNo balanceNo taken
  have drew : drawIf condition yes no d = some d' := drawIf_of_parts entered finished drewNo left
  obtain ⟨tidy, _, held', _⟩ := h.tidy.drawsIf countsYes filled countsNo drew
  obtain ⟨s, newest, newer⟩ := stocked₃.newest
  obtain ⟨grounded, stocked⟩ := after.grounded tidy
    (fun m hm => h₃.bounded m (List.mem_cons_of_mem _ hm))
    h.nodup ⟨s, newest, fun m hm => newer m (List.mem_cons_of_mem _ hm)⟩
  obtain ⟨x, more, ends⟩ := after.above
  refine ⟨d', x, more, drew, grounded, stocked, ⟨?_, branches', ?_⟩, held', ends⟩
  · rw [level', level₂, level₁, Int.add_sub_cancel]
  · rw [loops', loops₂, loops₁]

theorem Sketch.Grounded.drawsFor {body : Body} {n : Nat} (h : d.Grounded marks base)
    (held : d.held = "") (draws : body.DrawsIfBalanced) (counts : body.Counts)
    (filled : body.hasRun = true) (balance : body.balance (d.firsts.length + 1) = some n)
    (left : n ≠ 0) (condition : String) :
    ∃ d', drawFor condition body d = some d' ∧ d'.Grounded marks base ∧ d'.Stocked marks base ∧
      Same d d' := by
  obtain ⟨ports, below, above, opens, marked, known⟩ := h.opens
  obtain ⟨d₁, entered, h₁, level₁, branches₁, loops₁, length₁⟩ :=
    h.enterLoop held opens marked known condition
  rw [← length₁] at balance
  obtain ⟨d₂, finished, h₂, stocked₂, _, level₂, branches₂, loops₂⟩ :=
    draws.finish filled h₁ balance
  obtain ⟨_, fresh₂, _, length₂⟩ := counts.finish filled h₁.tidy finished
  have some₂ : d₂.firsts ≠ [] := by
    intro none
    rw [balance, none] at length₂
    exact left (Option.some.inj length₂)
  obtain ⟨x, more, ends⟩ := stocked₂.above
  obtain ⟨d', leftFor, after, branches', loops'⟩ :=
    h₂.leaveFor stocked₂ ends fresh₂ some₂ (loops₂.trans loops₁)
  have drew : drawFor condition body d = some d' := drawFor_of_parts entered finished leftFor
  obtain ⟨grounded, stocked⟩ :=
    after.grounded (h.tidy.drawsFor counts filled drew).1 h₂.bounded h.nodup stocked₂.newest
  refine ⟨d', drew, grounded, stocked, ?_, ?_, loops'⟩
  · rw [after.level, level₂, level₁, Int.add_sub_cancel]
  · rw [branches', branches₂, branches₁]

theorem Otherwise.DrawsIfBalanced.elseIf {yes : Body} {no : Otherwise}
    (drawsYes : yes.DrawsIfBalanced) (countsYes : yes.Counts) (filled : yes.hasRun = true)
    (drawsNo : no ≠ .nothing → no.DrawsIfBalanced) (countsNo : no.Counts) (condition : String) :
    (Otherwise.elseIf condition yes no).DrawsIfBalanced := by
  intro d marks c under rest n h stocked fresh held role branches balance
  rw [Otherwise.balance_elseIf] at balance
  obtain ⟨ports, below, y, above, opens, marked, known⟩ := h.opensElse stocked role branches
  obtain ⟨d', x, more, drew, grounded, stocked', same, held', ends⟩ :=
    h.drawsIf held opens marked known drawsYes countsYes filled drawsNo countsNo balance condition
  rw [← Otherwise.draw_elseIf] at drew
  cases more with
  | nil => exact ⟨d', x, y, above, drew, grounded, stocked', same, held', ends⟩
  | cons z more =>
      exact ⟨d', x, z, more ++ y :: above, drew, grounded, stocked', same, held', by simp [ends]⟩

theorem Otherwise.DrawsIfBalanced.block {body : Body} (draws : body.DrawsIfBalanced)
    (closed : body.endsInRun = true) : (Otherwise.block body).DrawsIfBalanced := by
  intro d marks c under rest n h stocked fresh held role branches balance
  obtain ⟨s, newest, statement, newer⟩ := fresh
  obtain ⟨d₁, entered, h₁, stocked₁, level₁, branches₁, loops₁⟩ :=
    h.enterElse stocked newest statement newer
  obtain ⟨_, firsts₁, _⟩ := h.tidy.enterBlock newest newer statement entered
  have balance₁ : body.balance d₁.firsts.length = some n := by
    rw [firsts₁]
    exact balance
  have branches' : d₁.branches = (d₁.level - 1, .thenElse) :: rest := by
    rw [branches₁, level₁, Int.add_sub_cancel, branches]
  obtain ⟨d', x, y, above, finished, grounded, stocked', held', level, branches, loops, ends⟩ :=
    draws.finishElse closed h₁ stocked₁ role branches' balance₁
  refine ⟨d', x, y, above, ?_, grounded, stocked',
    ⟨?_, branches.trans branches₁, loops.trans loops₁⟩, held', ends⟩
  · rw [Otherwise.draw_block, Body.drawBlock, entered]
    exact finished
  · rw [level, level₁, Int.add_sub_cancel]

theorem Body.endsInRun_run {text : String} {rest : Body} (ends : (run text rest).endsInRun = true) :
    rest = done ∨ rest.endsInRun = true := by
  cases rest with
  | done => exact .inl rfl
  | run _ _ => exact .inr ends
  | branch _ _ _ _ => exact .inr ends
  | loop _ _ _ => exact .inr ends

mutual

theorem Body.drawsIfBalanced : (b : Body) → b.Filled → b.Closed → b.Merged → b.DrawsIfBalanced
  | .done, _, _, _, d, marks, base, n, h, _ =>
      ⟨d, rfl, h, ⟨rfl, rfl, rfl⟩, id, fun supplied => supplied.resolve_right nofun, nofun⟩
  | .run text rest, filled, closed, merged, d, marks, base, n, h, balance => by
      have hold : (d.hold text).Grounded marks base :=
        h.congr (h.tidy.mono rfl le_rfl (.refl _)) rfl rfl rfl rfl
      obtain ⟨d', drew, grounded, same, stays, supplied, held⟩ :=
        rest.drawsIfBalanced filled closed merged.2.2 (d.hold text) marks base n hold balance
      have texts : (d.hold text).held ≠ "" := hold_ne merged.1
      refine ⟨d', drew, grounded, ⟨same.level, same.branches, same.loops⟩,
        fun stocked => stays (stocked.congr rfl rfl rfl), fun _ => supplied (.inl (.inr texts)),
        fun ends => ?_⟩
      rcases Body.endsInRun_run ends with rfl | ends
      · cases drew
        exact texts
      · exact held ends
  | .branch condition yes no rest, filled, closed, merged, d, marks, base, n, h, balance => by
      obtain ⟨⟨runYes, filledYes⟩, filledNo, filled⟩ := filled
      obtain ⟨closedYes, closedNo, closed⟩ := closed
      obtain ⟨mergedYes, mergedNo, merged⟩ := merged
      rw [Body.balance_branch] at balance
      obtain ⟨m, balanceIf, balance⟩ := Option.bind_eq_some_iff.mp balance
      obtain ⟨d₁, flushed, h₁, same₁, held₁, firsts₁, _⟩ := h.flush
      obtain ⟨ports, below, above, opens, marked, known⟩ := h₁.opens
      have countsYes := yes.counts filledYes mergedYes
      have countsNo := no.counts filledNo mergedNo
      rw [← firsts₁] at balanceIf
      obtain ⟨d₂, _, _, drewIf, h₂, stocked₂, same₂, _, _⟩ := h₁.drawsIf held₁ opens marked known
        (yes.drawsIfBalanced filledYes closedYes mergedYes) countsYes runYes
        (no.drawsIfBalanced filledNo closedNo mergedNo) countsNo balanceIf condition
      obtain ⟨_, _, _, length₂⟩ := h₁.tidy.drawsIf countsYes runYes countsNo drewIf
      rw [Option.some.inj (balanceIf.symm.trans length₂)] at balance
      obtain ⟨d', drew, grounded, same, stays, supplied, held⟩ :=
        rest.drawsIfBalanced filled closed merged d₂ marks base n h₂ balance
      refine ⟨d', ?_, grounded, (same₁.trans same₂).trans same, fun _ => stays stocked₂,
        fun _ => supplied (.inl (.inl stocked₂)), held⟩
      rw [flush_first _ (.inl ⟨condition, yes, no, rest, rfl⟩), flushed, Option.bind_some,
        Body.draw_branch, drewIf, Option.bind_some, drew]
  | .loop condition body rest, filled, closed, merged, d, marks, base, n, h, balance => by
      obtain ⟨⟨runBody, filledBody⟩, filled⟩ := filled
      obtain ⟨closedBody, closed⟩ := closed
      obtain ⟨mergedBody, merged⟩ := merged
      obtain ⟨m, balanceFor, balance⟩ := Option.bind_eq_some_iff.mp balance
      have left : m ≠ 0 := by
        rintro rfl
        cases balance
      rw [if_neg left] at balance
      obtain ⟨d₁, flushed, h₁, same₁, held₁, firsts₁, _⟩ := h.flush
      have counts := body.counts filledBody mergedBody
      rw [← firsts₁] at balanceFor
      obtain ⟨d₂, drewFor, h₂, stocked₂, same₂⟩ := h₁.drawsFor held₁
        (body.drawsIfBalanced filledBody closedBody mergedBody) counts runBody balanceFor
        left condition
      obtain ⟨_, _, length₂, _⟩ := h₁.tidy.drawsFor counts runBody drewFor
      rw [Option.some.inj (balanceFor.symm.trans length₂)] at balance
      obtain ⟨d', drew, grounded, same, stays, supplied, held⟩ :=
        rest.drawsIfBalanced filled closed merged d₂ marks base n h₂ balance
      refine ⟨d', ?_, grounded, (same₁.trans same₂).trans same, fun _ => stays stocked₂,
        fun _ => supplied (.inl (.inl stocked₂)), held⟩
      rw [flush_first _ (.inr ⟨condition, body, rest, rfl⟩), flushed, Option.bind_some,
        Body.draw_loop, drewFor, Option.bind_some, drew]

theorem Otherwise.drawsIfBalanced :
    (no : Otherwise) → no.Filled → no.Closed → no.Merged → no ≠ .nothing → no.DrawsIfBalanced
  | .nothing, _, _, _, something => absurd rfl something
  | .block body, filled, closed, merged, _ =>
      Otherwise.DrawsIfBalanced.block (body.drawsIfBalanced filled.2 closed.2 merged) closed.1
  | .elseIf condition yes no, ⟨⟨runYes, filledYes⟩, filledNo⟩, ⟨closedYes, closedNo⟩,
      ⟨mergedYes, mergedNo⟩, _ =>
      Otherwise.DrawsIfBalanced.elseIf (yes.drawsIfBalanced filledYes closedYes mergedYes)
        (yes.counts filledYes mergedYes) runYes
        (no.drawsIfBalanced filledNo closedNo mergedNo) (no.counts filledNo mergedNo) condition

end

/-- Nothing has been drawn, or something has and no block is open. -/
def Sketch.Rests (d : Sketch) : Prop := d.Tidy ∧ (d.lasts = [] ∨ d.Grounded [] [])

theorem Sketch.Rests.enterFunction (h : d.Rests) (name : String) :
    ∃ d', (d.enterFunction name).bind Sketch.enterBlock = some d' ∧ d'.Grounded [] [] := by
  obtain ⟨tidy, phase⟩ := h
  have placed : ∃ d₁, d.place .entry name "box" = some d₁ ∧ ∀ y ∈ d₁.lasts, Known d₁.count y := by
    rcases phase with first | grounded
    · refine ⟨_, settle_first (d := d.declare .entry name "box") _ first, ?_⟩
      rw [show (d.declare .entry name "box").lasts = [] from first]
      exact List.forall_mem_nil _
    · obtain ⟨d₁, _, placed, made, _⟩ := grounded.place .entry name "box"
      exact ⟨d₁, placed, made.grounded.known⟩
  obtain ⟨d₁, placed, known⟩ := placed
  obtain ⟨_, _, _, count, newest⟩ := tidy.place placed
  have entered : (d.enterFunction name).bind Sketch.enterBlock = some { d₁ with
      level := d₁.level + 1
      lasts := (Tip.spot ⟨.entry, d.count + 1⟩).addTo d₁.lasts
      ends := .spot ⟨.entry, d₁.count⟩ :: d₁.ends } := by
    rw [Sketch.enterFunction, placed]
    simp [Sketch.enterBlock, newest]
  refine ⟨_, entered, (tidy.enterFunction entered).1, fun y hy => ?_, List.forall_mem_nil _, .nil,
    .inr ⟨?_, trivial, ?_, ?_⟩⟩
  · rcases mem_addTo hy with rfl | old
    · intro p hp
      cases List.mem_singleton.mp hp
      exact count.ge
    · exact known y old
  · exact addTo_top_ne (List.forall_mem_nil _) _
  · exact ⟨_, d₁.ends, by rw [List.append_nil]⟩
  · exact ⟨_, newest, by simp⟩

theorem Function.draws_of_balanced {f : Function} {n : Nat} (filled : f.Filled)
    (closed : f.body.Closed) (merged : f.body.Merged) (h : d.Rests)
    (balance : f.body.balance d.firsts.length = some n) : ∃ d', f.draw d = some d' ∧ d'.Rests := by
  obtain ⟨d₁, entered, h₁⟩ := h.enterFunction f.name
  rw [← (h.1.enterFunction entered).2] at balance
  obtain ⟨d₂, finished, h₂, _⟩ :=
    (f.body.drawsIfBalanced filled.2 closed merged).finish filled.1 h₁ balance
  obtain ⟨d', _, left, made, _⟩ := h₂.place d₂.blockRole (f.name ++ " end") "box"
  refine ⟨d', ?_, made.grounded.tidy, .inr made.grounded⟩
  rw [Function.draw_eq, entered, Option.bind_some, finished, Option.bind_some]
  exact left

theorem drawAll_of_balanced (fs : List Function) (filled : ∀ f ∈ fs, f.Filled)
    (closed : ∀ f ∈ fs, f.body.Closed) (merged : ∀ f ∈ fs, f.body.Merged) (h : d.Rests) {n : Nat}
    (balance : balanceAll fs d.firsts.length = some n) : (drawAll fs d).isSome := by
  induction fs generalizing d with
  | nil => rfl
  | cons f fs ih =>
      obtain ⟨filledFirst, filled⟩ := List.forall_mem_cons.mp filled
      obtain ⟨closedFirst, closed⟩ := List.forall_mem_cons.mp closed
      obtain ⟨mergedFirst, merged⟩ := List.forall_mem_cons.mp merged
      obtain ⟨m, balanceFirst, balance⟩ := Option.bind_eq_some_iff.mp balance
      obtain ⟨d₁, drew, h₁⟩ :=
        f.draws_of_balanced filledFirst closedFirst mergedFirst h balanceFirst
      have length := (f.counts filledFirst mergedFirst h.1 drew).2
      rw [Option.some.inj (balanceFirst.symm.trans length)] at balance
      change (Option.bind (f.draw d) (drawAll fs)).isSome
      rw [drew]
      exact ih filled closed merged h₁ balance

theorem Sketch.tidy_empty : ({} : Sketch).Tidy := ⟨.nil, nofun, .nil, nofun⟩

mutual

def Body.TwoSided : Body → Prop
  | .done => True
  | .run _ rest => rest.TwoSided
  | .branch _ yes no rest => yes.TwoSided ∧ no.TwoSided ∧ rest.TwoSided
  | .loop _ body rest => body.TwoSided ∧ rest.TwoSided

def Otherwise.TwoSided : Otherwise → Prop
  | .nothing => False
  | .block body => body.TwoSided
  | .elseIf _ _ _ => False

end

/-- With an else block, an if statement puts as many firsts on the stack as it takes off. -/
theorem Body.TwoSided.balance : (b : Body) → b.TwoSided → ∀ n, ∃ m, b.balance n = some m ∧ n ≤ m
  | .done, _, n => ⟨n, rfl, le_rfl⟩
  | .run _ rest, sides, n => Body.TwoSided.balance rest sides n
  | .branch _ yes (.block no) rest, ⟨sidesYes, sidesNo, sides⟩, n => by
      obtain ⟨k, balanceYes, leYes⟩ := Body.TwoSided.balance yes sidesYes (n + 1)
      obtain ⟨l, balanceNo, leNo⟩ := Body.TwoSided.balance no sidesNo (k + 1)
      obtain ⟨m, balance, le⟩ := Body.TwoSided.balance rest sides (l - 2)
      have taken : takeTwo l = some (l - 2) := if_pos (by omega)
      refine ⟨m, ?_, by omega⟩
      simp only [Body.balance_branch, balanceIf, balanceYes, Otherwise.balance, balanceNo, taken,
        Option.bind_some, balance]
  | .loop _ body rest, ⟨sidesBody, sides⟩, n => by
      obtain ⟨k, balanceBody, leBody⟩ := Body.TwoSided.balance body sidesBody (n + 1)
      obtain ⟨m, balance, le⟩ := Body.TwoSided.balance rest sides k
      refine ⟨m, ?_, by omega⟩
      rw [Body.balance, balanceBody]
      change (if k = 0 then none else _) = _
      rw [if_neg (by omega), balance]

theorem balanceAll_of_twoSided {fs : List Function} (sides : ∀ f ∈ fs, f.body.TwoSided) (n : Nat) :
    (balanceAll fs n).isSome := by
  induction fs generalizing n with
  | nil => rfl
  | cons f fs ih =>
      obtain ⟨sidesFirst, sides⟩ := List.forall_mem_cons.mp sides
      obtain ⟨m, balance, _⟩ := Body.TwoSided.balance f.body sidesFirst n
      rw [balanceAll, balance]
      exact ih sides m

/-- When the walk through a source with a run in each block is completed: just if the source can be
drawn, and then the firsts have sufficed. Where each else block ends in a run that is enough, and
where each if statement has such an else block they always suffice. -/
theorem completed_iff_balanced (t : Tree) (fs : List Function) (shown : Shows t fs)
    (paired : ∀ e ∈ t.walk, e.Assigns fun names values => values = names)
    (filled : ∀ f ∈ fs, f.Filled) :
    (((Builder.new .late).follow t).mishap = none ↔ (drawAll fs {}).isSome) ∧
      (((Builder.new .late).follow t).mishap = none → (balanceAll fs 0).isSome) ∧
      ((∀ f ∈ fs, f.body.Closed) →
        (((Builder.new .late).follow t).mishap = none ↔ (balanceAll fs 0).isSome)) ∧
      ((∀ f ∈ fs, f.body.Closed ∧ f.body.TwoSided) →
      ((Builder.new .late).follow t).mishap = none) := by
  have fits : Fits t.walk := fits_of_paired paired
  have merged := shown.merged fits
  have drawn := (shown.follow fits).1
  have balanced : (drawAll fs {}).isSome → (balanceAll fs 0).isSome := by
    intro some
    obtain ⟨d, drew⟩ := Option.isSome_iff_exists.mp some
    exact Option.isSome_of_eq_some (drawAll_counts fs filled merged tidy_empty drew)
  have enough (closed : ∀ f ∈ fs, f.body.Closed) : (balanceAll fs 0).isSome →
      (drawAll fs {}).isSome := by
    intro some
    obtain ⟨n, balance⟩ := Option.isSome_iff_exists.mp some
    exact drawAll_of_balanced fs filled closed merged ⟨tidy_empty, .inl rfl⟩ balance
  refine ⟨drawn, fun done => balanced (drawn.mp done), fun closed => ?_, fun closed => ?_⟩
  · exact ⟨fun done => balanced (drawn.mp done), fun balance => drawn.mpr (enough closed balance)⟩
  · exact drawn.mpr (enough (fun f hf => (closed f hf).1)
      (balanceAll_of_twoSided (fun f hf => (closed f hf).2) 0))

section

open GoFlow.Tree

/-- An if statement without an else after a run: one first is put on the stack, and two are taken
off. -/
def loneIf : Tree := of .sourceFile [func "f" [assign "x" "1", ifThen "c" [assign "x" "2"]]]

def loneIfBody : Body := .run "x = 1 \n" (.branch "c" (.run "x = 2 \n" .done) .nothing .done)

theorem loneIf_shows : Shows loneIf [⟨"f", loneIfBody⟩] :=
  have yes : Block (braces [assign "x" "2"]) (.run "x = 2 \n" .done) :=
    .braces (.assign "x" "2" .close)
  .intro rfl (.declares (.func "f" (.braces (.assign "x" "1" (.ifThen "c" yes .close)))) .none)

theorem loneIf_stops : loneIfBody.Closed ∧ ((Builder.new .late).follow loneIf).mishap ≠ none := by
  have closed : loneIfBody.Closed := by simp [loneIfBody, Body.Closed, Otherwise.Closed]
  have filled : Function.Filled ⟨"f", loneIfBody⟩ := by
    simp [Function.Filled, loneIfBody, Body.hasRun, Body.Filled, Otherwise.Filled]
  refine ⟨closed, fun done => ?_⟩
  have balance :=
    ((completed_iff_balanced loneIf [⟨"f", loneIfBody⟩] loneIf_shows (by decide +kernel)
      (by simpa using filled)).2.2.1 (by simpa using closed)).mp done
  exact absurd balance (by decide)

end

end GoFlow
