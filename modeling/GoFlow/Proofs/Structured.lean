import GoFlow.Proofs.Drawn

/-! Structured bodies: runs and if statements whose else branch is a single run, nested in then
branches and in loops. Such bodies can be drawn, and what is drawn for them is a plan. -/

namespace GoFlow

namespace Body

def IsRun (b : Body) : Prop := ∃ text, b = run text done

def endsInBranch : Body → Bool
  | done => false
  | run _ rest => rest.endsInBranch
  | branch _ _ _ done => true
  | branch _ _ _ rest => rest.endsInBranch
  | loop _ _ rest => rest.endsInBranch

/-- Runs, if statements with an else branch and, where they are allowed, loops. An else branch is a
single run; a then branch is a single run or ends in an if statement. -/
def Structured (loops : Bool) : Body → Prop
  | done => True
  | run _ rest => rest.Structured loops
  | branch _ yes no rest =>
      (yes.Structured false ∧ (yes.IsRun ∨ yes.endsInBranch = true)) ∧
      (∃ text, no = .block (run text done)) ∧ rest.Structured loops
  | loop _ body rest =>
      loops = true ∧ (body.Structured false ∧ body ≠ done) ∧ rest.Structured loops

end Body

/-- Draws what stands in a block, and leaves the block. -/
def Body.finish (b : Body) (d : Sketch) : Option Sketch := (b.draw d).bind Sketch.leaveBlock

namespace Sketch

variable {d : Sketch}

theorem flush_first (b : Body) (statement : (∃ c yes no rest, b = .branch c yes no rest) ∨
    ∃ c body rest, b = .loop c body rest) : b.draw d = d.flush.bind b.draw := by
  have again (f : Sketch → Option Sketch) : d.flush.bind (fun e => e.flush.bind f) =
      d.flush.bind f := by
    cases h : d.flush with
    | none => rfl
    | some e =>
        rw [Option.bind_some, Option.bind_some, flush_held (held_of_flush h), Option.bind_some]
  rcases statement with ⟨c, yes, no, rest, rfl⟩ | ⟨c, body, rest, rfl⟩
  · have split (e : Sketch) : (Body.branch c yes no rest).draw e = e.flush.bind fun e =>
        ((e.place .condition c "diamond").bind fun e => some { e with
          firsts := Spot.addTo ⟨.condition, e.count⟩ e.firsts
          branches := (e.level, no.branches) :: e.branches }).bind fun e =>
        (yes.drawBlock e).bind fun e => (no.draw e).bind fun e =>
        (e.leaveIf no.branches).bind rest.draw := by
      rw [Body.draw_branch]
      simp only [drawIf, enterIf, Option.bind_eq_bind, Option.bind_assoc, Option.pure_def]
    rw [split, funext split, again]
  · have split (e : Sketch) : (Body.loop c body rest).draw e = e.flush.bind fun e =>
        ((e.place .loop ("for " ++ c) "egg").bind fun e => some { e with
          loops := (e.count : Int) :: e.loops }).bind fun e =>
        (body.drawBlock e).bind fun e => e.leaveFor.bind rest.draw := by
      rw [Body.draw_loop]
      simp only [drawFor, enterFor, Option.bind_eq_bind, Option.bind_assoc, Option.pure_def]
    rw [split, funext split, again]

end Sketch

namespace Body

variable {d : Sketch}

theorem finish_run (text : String) (rest : Body) (statement : rest ≠ done)
    (merged : (run text rest).Merged) :
    (run text rest).finish d = (d.hold text).flush.bind rest.finish := by
  have first : rest.draw (d.hold text) = (d.hold text).flush.bind rest.draw := by
    cases rest with
    | done => exact absurd rfl statement
    | run text' rest' => exact absurd rfl (merged.2.1 text' rest')
    | branch c yes no rest => exact Sketch.flush_first _ (.inl ⟨c, yes, no, rest, rfl⟩)
    | loop c body rest => exact Sketch.flush_first _ (.inr ⟨c, body, rest, rfl⟩)
  rw [finish, draw, first, Option.bind_assoc]
  rfl

theorem finish_branch (condition : String) (yes rest : Body) (no : Otherwise) :
    (branch condition yes no rest).finish d = (drawIf condition yes no d).bind rest.finish := by
  rw [finish, draw_branch, Option.bind_assoc]
  rfl

theorem finish_loop (condition : String) (body rest : Body) :
    (loop condition body rest).finish d = (drawFor condition body d).bind rest.finish := by
  rw [finish, draw_loop, Option.bind_assoc]
  rfl

end Body

namespace Sketch

def lower (d : Sketch) : Sketch := { d with level := d.level - 1 }

theorem finish_held {d : Sketch} (held : d.held = "") : Body.done.finish d = some d.lower := by
  rw [Body.finish, Body.draw]
  exact flush_held (d := d.lower) held

theorem finish_single (d : Sketch) (text : String) :
    (Body.run text .done).finish d = (d.lower.hold text).flush := by
  rw [Body.finish, Body.draw, Body.draw]
  rfl

/-- The nodes have rising numbers up to the count, and so have the firsts. -/
structure Sorted (d : Sketch) : Prop where
  rising : d.nodes.Pairwise fun s t => s.number < t.number
  bounded : ∀ s ∈ d.nodes, s.number ≤ d.count
  firsts : ∀ s ∈ d.firsts, s.number ≤ d.count

/-- A statement may be drawn after the ports. -/
structure Ready (d : Sketch) (ports : List Port) (below under : List Tip) : Prop where
  held : d.held = ""
  sorted : d.Sorted
  noBranch : d.NoBranchAtLevel
  opens : d.Opens ports below under
  known : ∀ y ∈ below, Known d.count y

/-- A statement has been drawn: the tops of the lasts and of the ends have the ports at which it
ends, and the node made last is among them. -/
structure EndsAt (d : Sketch) (ports : List Port) (below under : List Tip) : Prop where
  last : ∃ x, d.lasts = x :: below ∧ x.ports = ports ∧ x.hasRole .condition = false ∧
    x.hasRole .loop = false
  tail : ∃ e, d.ends = e :: under ∧ e.ports = ports
  newest : ∃ n, d.nodes.getLast? = some n ∧ n.role ≠ .entry ∧ (Tip.spot n).addTo d.lasts = d.lasts

/-- Only what has been drawn, the lasts, the ends and the level may be different. -/
structure Frame (level : Int) (d d' : Sketch) : Prop where
  held : d'.held = ""
  level : d'.level = level
  branches : d'.branches = d.branches
  loops : d'.loops = d.loops
  firsts : d'.firsts = d.firsts

variable {d d' : Sketch} {ports : List Port} {below under : List Tip}

theorem EndsAt.opens (h : d.EndsAt ports below under) (noBranch : d.NoBranchAtLevel) :
    d.Opens ports below under := by
  obtain ⟨x, lasts, _, condition, loop⟩ := h.last
  obtain ⟨e, ends, rfl⟩ := h.tail
  exact opens_joined lasts ends noBranch condition (.inl loop)

theorem EndsAt.lower (h : d.EndsAt ports below under) : d.lower.EndsAt ports below under :=
  ⟨h.last, h.tail, h.newest⟩

theorem addTo_top (x : Tip) (rest : List Tip) : x.addTo (x :: rest) = x :: rest := by
  rw [Tip.addTo, if_pos (by simp)]

theorem endsAt_putting {s : Spot} (role : s.role ≠ .condition ∧ s.role ≠ .loop ∧ s.role ≠ .entry)
    (text shape : String) (ports : List Port) (below under : List Tip) :
    (d.putting s text shape ports below under).EndsAt [.south s] below under where
  last := ⟨.spot s, rfl, rfl, by simp [Tip.spot, Tip.hasRole, Port.spot, role],
    by simp [Tip.spot, Tip.hasRole, Port.spot, role]⟩
  tail := ⟨.spot s, rfl, rfl⟩
  newest := ⟨s, by simp [putting], role.2.2, addTo_top _ _⟩

theorem blockRole_plain (d : Sketch) :
    d.blockRole ≠ .condition ∧ d.blockRole ≠ .loop ∧ d.blockRole ≠ .entry ∧
      d.blockRole ≠ .dummy := by
  unfold blockRole
  repeat' split
  all_goals simp

theorem Sorted.drawn {p : Plan} (sorted : d.Sorted) (drawn : Drawn p ports d.drawing d'.drawing)
    (firsts : d'.firsts = d.firsts) : d'.Sorted := by
  obtain ⟨rising, bounded⟩ := drawn.rising sorted.rising sorted.bounded
  refine ⟨rising, bounded, fun s hs => ?_⟩
  rw [firsts] at hs
  have := sorted.firsts s hs
  have : d'.count = d.count + p.all.length := drawn.count
  omega

theorem Sorted.put {s : Spot} (sorted : d.Sorted) (number : s.number = d.count + 1)
    (nodes : d'.nodes = d.nodes ++ [s]) (count : d'.count = d.count + 1)
    (firsts : ∀ t ∈ d'.firsts, t = s ∨ t ∈ d.firsts) : d'.Sorted := by
  refine ⟨?_, ?_, ?_⟩
  · rw [nodes]
    refine List.pairwise_append.mpr
      ⟨sorted.rising, List.pairwise_singleton _ _, fun t ht u hu => ?_⟩
    cases List.mem_singleton.mp hu
    have := sorted.bounded t ht
    omega
  · intro t ht
    rw [nodes, List.mem_append, List.mem_singleton] at ht
    rcases ht with old | rfl
    · have := sorted.bounded t old
      omega
    · omega
  · intro t ht
    rcases firsts t ht with rfl | old
    · omega
    · have := sorted.firsts t old
      omega

theorem known_mono {m n : Nat} {x : Tip} (h : Known m x) (le : m ≤ n) : Known n x :=
  fun p hp => (h p hp).trans le

/-- The ports of the tip belong to nodes beyond the number. -/
def Beyond (n : Nat) (x : Tip) : Prop := ∀ p ∈ x.ports, n < p.spot.number

theorem beyond_mono {m n : Nat} {x : Tip} (h : Beyond n x) (le : m ≤ n) : Beyond m x :=
  fun p hp => Nat.lt_of_le_of_lt le (h p hp)

theorem beyond_spot {n : Nat} {s : Spot} (new : n < s.number) : Beyond n (.spot s) := by
  intro p hp
  cases List.mem_singleton.mp hp
  exact new

theorem known_push {n : Nat} {s : Spot} {stack : List Tip} (known : ∀ y ∈ stack, Known n y)
    (number : s.number = n + 1) : ∀ y ∈ Tip.spot s :: stack, Known (n + 1) y := by
  refine List.forall_mem_cons.mpr
    ⟨fun p hp => ?_, fun y hy => known_mono (known y hy) (Nat.le_succ _)⟩
  cases List.mem_singleton.mp hp
  exact number.le

theorem Opens.enterThen (opens : d.Opens ports below under) (held : d.held = "")
    (firsts : ∀ s ∈ d.firsts, s.number ≤ d.count) (condition : String) (kind : Branches) :
    (d.enterIf condition kind).bind enterBlock = some
      { d.putting ⟨.condition, d.count + 1⟩ condition "diamond" ports below under with
        level := d.level + 1
        firsts := ⟨.condition, d.count + 1⟩ :: d.firsts
        branches := (d.level, kind) :: d.branches } := by
  rw [opens.enterIf held firsts, Option.bind_some, enterBlock]
  simp [putting, Spot.addTo, addTo_top]

theorem Opens.enterLoop (opens : d.Opens ports below under) (held : d.held = "")
    (firsts : ∀ s ∈ d.firsts, s.number ≤ d.count) (condition : String) :
    (d.enterFor condition).bind enterBlock = some
      { d.putting ⟨.loop, d.count + 1⟩ ("for " ++ condition) "egg" ports below under with
        level := d.level + 1
        firsts := ⟨.loop, d.count + 1⟩ :: d.firsts
        loops := ((d.count + 1 : Nat) : Int) :: d.loops } := by
  have first : Spot.addTo ⟨.loop, d.count + 1⟩ d.firsts = ⟨.loop, d.count + 1⟩ :: d.firsts :=
    addTo_fresh firsts (Nat.lt_succ_self _)
  rw [opens.enterFor held, Option.bind_some, enterBlock]
  simp [putting, first, addTo_top]

theorem Ready.enterThen (ready : d.Ready ports below under) (condition : String) (kind : Branches) :
    ∃ c d', (d.enterIf condition kind).bind enterBlock = some d' ∧ c = ⟨.condition, d.count + 1⟩ ∧
      d'.Ready [] (.spot c :: below) (.spot c :: under) ∧
      d'.lower.Opens [] (.spot c :: below) (.spot c :: under) ∧
      d'.drawing = d.drawing.put c condition "diamond" ports ∧ d'.level = d.level + 1 ∧
      d'.branches = (d.level, kind) :: d.branches ∧ d'.loops = d.loops ∧
      d'.firsts = c :: d.firsts := by
  obtain ⟨c, hc⟩ : ∃ c : Spot, c = ⟨.condition, d.count + 1⟩ := ⟨_, rfl⟩
  have number : c.number = d.count + 1 := by rw [hc]
  have role : c.role = .condition := by rw [hc]
  have new : (Tip.spot c).addTo below = .spot c :: below :=
    addTo_new ready.known ⟨.south c, by simp [Tip.spot, Tip.ports], by simp [Port.spot, number]⟩
  refine ⟨c, { d.putting c condition "diamond" ports below under with
    level := d.level + 1
    firsts := c :: d.firsts
    branches := (d.level, kind) :: d.branches }, ?_, hc, ?_, ?_, rfl, rfl, rfl, rfl, rfl⟩
  · rw [hc]
    exact ready.opens.enterThen ready.held ready.sorted.firsts condition kind
  · refine ⟨ready.held, ready.sorted.put number rfl rfl fun t => List.mem_cons.mp, ?_, ?_, ?_⟩
    · intro b hb
      cases hb
      change d.level ≠ d.level + 1
      omega
    · rw [← new]
      exact opens_condition rfl role
    · exact known_push ready.known number
  · rw [← new]
    exact opens_condition rfl role

/-- A condition is on top. -/
def Headed (stack : List Tip) : Prop := ∃ y ys, stack = y :: ys ∧ y.hasRole .condition = true

theorem Headed.addTo {stack : List Tip} (headed : Headed stack) {x : Tip}
    (other : x.hasRole .condition = false) : x.addTo stack = x :: stack := by
  obtain ⟨y, ys, rfl, role⟩ := headed
  cases y with
  | group xs => cases role
  | port p =>
      have apart : (Tip.port p == x) = false := by
        rw [beq_eq_false_iff_ne]
        rintro rfl
        rw [role] at other
        cases other
      rw [Tip.addTo, apart, Bool.or_false, if_neg (by simp [Tip.members])]

theorem Headed.erase {stack : List Tip} (headed : Headed stack) {x : Tip}
    (other : x.hasRole .condition = false) : Headed (stack.erase x) := by
  obtain ⟨y, ys, rfl, role⟩ := headed
  refine ⟨y, ys.erase x, List.erase_cons_tail ?_, role⟩
  rw [beq_iff_eq]
  rintro rfl
  rw [role] at other
  cases other

theorem EndsAt.drawElse {c : Spot} {rest : List (Int × Branches)}
    (endsAt : d.EndsAt ports below (.spot c :: under)) (role : c.role = .condition)
    (headed : Headed below) (held : d.held = "")
    (hbranches : d.branches = (d.level, .thenElse) :: rest)
    (fresh : ∀ n ∈ d.nodes.getLast?, ∀ s ∈ d.firsts, s.number < n.number) {text : String}
    (filled : text ≠ "") :
    ∃ e n x tail d', (Body.run text .done).drawBlock d = some d' ∧ e.number = d.count + 1 ∧
      (e.role ≠ .condition ∧ e.role ≠ .loop ∧ e.role ≠ .entry ∧ e.role ≠ .dummy) ∧
      d.nodes.getLast? = some n ∧ (x.ports = ports ∧ x.hasRole .condition = false) ∧
      d'.drawing = d.drawing.put e text "box" [] ∧ d'.firsts = n :: d.firsts ∧
      d'.lasts = .spot e :: x :: below ∧ d'.ends = .spot e :: tail :: .spot c :: under ∧
      d'.held = "" ∧ d'.level = d.level ∧ d'.branches = d.branches ∧ d'.loops = d.loops := by
  obtain ⟨x, lasts, xPorts, xCondition, _⟩ := endsAt.last
  obtain ⟨tail, ends, _⟩ := endsAt.tail
  obtain ⟨n, newest, notEntry, onTop⟩ := endsAt.newest
  have first : n.addTo d.firsts = n :: d.firsts := by
    cases firsts : d.firsts with
    | nil => rfl
    | cons s ss =>
        have less := fresh n newest s (by rw [firsts]; exact List.mem_cons_self)
        rw [Spot.addTo, if_neg (by rintro rfl; exact Nat.lt_irrefl _ less)]
  obtain ⟨d₁, hd₁⟩ : ∃ d₁ : Sketch, d₁ = { d with held := text, firsts := n :: d.firsts } :=
    ⟨_, rfl⟩
  have entered : (Body.run text .done).drawBlock d = d₁.flush := by
    rw [Body.drawBlock, enterBlock, newest, Option.map_some, Option.bind_some, Body.draw, Body.draw,
      Option.bind_some, leaveBlock]
    congr 1
    simp [hd₁, hold, held, notEntry, onTop, first]
  have beginsElse : d₁.apart x = true := by
    rw [apart, show d₁.beginsElse = true from ?_, Bool.or_true, Bool.true_or]
    have hb : d₁.branches = (d.level, .thenElse) :: rest := by rw [hd₁]; exact hbranches
    have he : d₁.ends = tail :: .spot c :: under := by rw [hd₁]; exact ends
    have hl : d₁.level = d.level := by rw [hd₁]
    simp [Sketch.beginsElse, hb, he, hl, Tip.spot, Tip.hasRole, Port.spot, role]
  have opens : d₁.Opens [] (x :: below) (tail :: .spot c :: under) := by
    refine ⟨x, below, by rw [hd₁]; exact lasts, .inr ⟨beginsElse, headed.addTo xCondition, ?_, rfl⟩⟩
    rw [hd₁]
    exact ends
  have text₁ : d₁.held = text := by rw [hd₁]
  have count₁ : d₁.count = d.count := by rw [hd₁]
  refine ⟨⟨d₁.blockRole, d₁.count + 1⟩, n, x, tail, _,
    entered.trans (opens.flush (by rw [text₁]; exact filled)), by rw [count₁],
    d₁.blockRole_plain, newest, ⟨xPorts, xCondition⟩, ?_, ?_, rfl, rfl, rfl, ?_, ?_, ?_⟩
  · rw [text₁]
    simp [drawing, putting, Drawing.put, hd₁]
  all_goals simp [putting, hd₁]

end Sketch

theorem drawIf_eq (condition : String) (yes : Body) (no : Otherwise) (d : Sketch) :
    drawIf condition yes no d =
      ((d.enterIf condition no.branches).bind Sketch.enterBlock).bind fun d =>
        (yes.finish d).bind fun d => (no.draw d).bind fun d => d.leaveIf no.branches := by
  simp only [drawIf, Body.drawBlock, Body.finish, Option.bind_assoc]

theorem drawFor_eq (condition : String) (body : Body) (d : Sketch) :
    drawFor condition body d = ((d.enterFor condition).bind Sketch.enterBlock).bind fun d =>
      (body.finish d).bind fun d => d.leaveFor := by
  simp only [drawFor, Body.drawBlock, Body.finish, Option.bind_assoc]

theorem drawIf_of_parts {condition : String} {yes : Body} {no : Otherwise}
    {d d₁ d₂ d₃ d' : Sketch}
    (entered : (d.enterIf condition no.branches).bind Sketch.enterBlock = some d₁)
    (finished : yes.finish d₁ = some d₂) (drew : no.draw d₂ = some d₃)
    (left : d₃.leaveIf no.branches = some d') : drawIf condition yes no d = some d' := by
  rw [drawIf_eq, entered, Option.bind_some, finished, Option.bind_some, drew,
    Option.bind_some, left]

theorem drawFor_of_parts {condition : String} {body : Body} {d d₁ d₂ d' : Sketch}
    (entered : (d.enterFor condition).bind Sketch.enterBlock = some d₁)
    (finished : body.finish d₁ = some d₂) (left : d₂.leaveFor = some d') :
    drawFor condition body d = some d' := by
  rw [drawFor_eq, entered, Option.bind_some, finished, Option.bind_some, left]

theorem Function.draw_eq (f : Function) (d : Sketch) :
    f.draw d = ((d.enterFunction f.name).bind Sketch.enterBlock).bind fun d =>
      (f.body.finish d).bind fun d => d.leaveFunction f.name := by
  simp only [Function.draw, Body.drawBlock, Body.finish, Option.bind_eq_bind, Option.bind_assoc]

theorem Plan.spots_of_ne {p : Plan} (nonempty : p ≠ .done) (s : Spot) :
    ∃ rest, p.spots = p.start s :: rest := by
  cases p with
  | done => exact absurd rfl nonempty
  | _ => exact ⟨_, rfl⟩

open Sketch

/-- The body is drawn as a plan wherever a statement may be drawn. -/
def Body.DrawsAsPlan (b : Body) : Prop :=
  ∀ (d : Sketch) (ports : List Port) (below under : List Tip), d.Ready ports below under →
    (b.IsRun → d.lower.Opens ports below under) →
    (b.endsInBranch = true ∨ b.IsRun ∨ d.branches = []) →
    ∃ p d', b.finish d = some d' ∧ p.body = b ∧ Drawn p ports d.drawing d'.drawing ∧
      Sketch.Frame (d.level - 1) d d' ∧
      (b ≠ .done → ∃ below', d'.EndsAt (p.exits ports) below' under ∧
        (Headed below → Headed below') ∧ (∀ y ∈ below', Known d'.count y) ∧
        ∀ y ∈ below', y ∈ below ∨ Beyond d.count y)

theorem Sketch.Headed.leaveIf {d : Sketch} {n c e t : Spot} {firsts : List Spot} {x tail z : Tip}
    {below under : List Tip} {b : Int × Branches} {branches : List (Int × Branches)}
    (headed : Headed below) (xCondition : x.hasRole .condition = false)
    (hfirsts : d.firsts = n :: c :: firsts) (nextElse : d.next? n = some e)
    (nextThen : d.next? c = some t) (hlasts : d.lasts = .spot e :: x :: below)
    (hends : d.ends = .spot e :: tail :: z :: under) (hbranches : d.branches = b :: branches) :
    d.leaveIf .thenElse = some { d with
      firsts, branches
      lasts := .group [x, .spot e] :: below.erase x
      ends := x.join (.spot e) :: under
      strokes := d.strokes ++
        [.edge (.south c) t [("label", "true"), ("headport", "n"), ("tailport", "w")],
          .edge (.south c) e [("label", "false"), ("headport", "n"), ("tailport", "e")]] } := by
  have group : (Tip.group [x, .spot e]).addTo (below.erase x) =
      .group [x, .spot e] :: below.erase x :=
    (headed.erase xCondition).addTo rfl
  rw [Sketch.leaveIf, leaveIfElse_eq hfirsts nextElse nextThen hlasts hends, group]
  simp only [Option.bind_eq_bind, Option.bind_some, popBranch, hbranches]

/-- The then block of an if statement, entered with the second sketch, has been drawn as a plan. -/
structure Sketch.AfterThen (d : Sketch) (ports : List Port) (below under : List Tip)
    (condition : String) (c : Spot) (p : Plan) (d₂ d₃ : Sketch) (below₃ : List Tip) : Prop where
  role : c.role = .condition
  number : c.number = d.count + 1
  nonempty : p ≠ .done
  begun : d₂.drawing = d.drawing.put c condition "diamond" ports
  drawn : Drawn p [] d₂.drawing d₃.drawing
  sorted : d₃.Sorted
  held : d₃.held = ""
  level : d₃.level = d.level
  branches : d₃.branches = (d₃.level, .thenElse) :: d.branches
  loops : d₃.loops = d.loops
  firsts : d₃.firsts = c :: d.firsts
  endsAt : d₃.EndsAt (p.exits []) below₃ (.spot c :: under)
  headed : Headed below₃
  known : ∀ y ∈ below₃, Known d₃.count y
  old : ∀ y ∈ below₃, y ∈ below ∨ Beyond d.count y

theorem Sketch.Ready.drawsThen {d : Sketch} {ports : List Port} {below under : List Tip}
    (ready : d.Ready ports below under) {yes : Body} (asPlan : yes.DrawsAsPlan)
    (shape : yes.IsRun ∨ yes.endsInBranch = true) (condition : String) :
    ∃ c p d₂ d₃ below₃, (d.enterIf condition .thenElse).bind enterBlock = some d₂ ∧
      yes.finish d₂ = some d₃ ∧
      p.body = yes ∧ d.AfterThen ports below under condition c p d₂ d₃ below₃ := by
  obtain ⟨c, d₂, entered, hc, ready₂, lower₂, drawing₂, level₂, branches₂, loops₂, firsts₂⟩ :=
    ready.enterThen condition .thenElse
  have role : c.role = .condition := by rw [hc]
  have number : c.number = d.count + 1 := by rw [hc]
  obtain ⟨p, d₃, finished, body, drawn, frame, endsAt⟩ := asPlan d₂ _ _ _ ready₂ (fun _ => lower₂)
    (shape.symm.imp_right .inl)
  have nonempty : yes ≠ .done := by
    rintro rfl
    rcases shape with ⟨_, h⟩ | h <;> cases h
  have nonemptyPlan : p ≠ .done := by
    rintro rfl
    exact nonempty body.symm
  obtain ⟨below₃, endsAt, headed, known, old⟩ := endsAt nonempty
  have level₃ : d₃.level = d.level := by rw [frame.level, level₂]; omega
  have count₂ : d₂.count = d.count + 1 := congrArg Drawing.count drawing₂
  refine ⟨c, p, d₂, d₃, below₃, entered, finished, body, role, number, nonemptyPlan,
    drawing₂, drawn,
    ready₂.sorted.drawn drawn frame.firsts, frame.held, level₃, ?_, frame.loops.trans loops₂,
    frame.firsts.trans firsts₂, endsAt, ?_, known, fun y hy => ?_⟩
  · rw [frame.branches, branches₂, level₃]
  · exact headed ⟨_, _, rfl, by simp [Tip.spot, Tip.hasRole, Port.spot, role]⟩
  · rcases old y hy with member | new
    · rcases List.mem_cons.mp member with rfl | member
      · exact .inr (beyond_spot (by omega))
      · exact .inl member
    · exact .inr (beyond_mono new (by omega))

namespace Sketch.AfterThen

variable {d d₂ d₃ : Sketch} {ports : List Port} {below under below₃ : List Tip} {condition : String}
  {c : Spot} {p : Plan}

theorem nodes (h : d.AfterThen ports below under condition c p d₂ d₃ below₃) :
    d₃.nodes = d.nodes ++ [c] ++ p.spots := by
  have := h.drawn.nodes
  rwa [h.begun] at this

/-- The node made last is newer than every first. -/
theorem fresh (h : d.AfterThen ports below under condition c p d₂ d₃ below₃)
    (firsts : ∀ s ∈ d.firsts, s.number ≤ d.count) :
    ∀ n ∈ d₃.nodes.getLast?, ∀ s ∈ d₃.firsts, s.number < n.number := by
  intro n hn s hs
  obtain ⟨spots, hspots⟩ := Plan.spots_of_ne h.nonempty c
  have member : n ∈ p.all := by
    rw [h.nodes, List.getLast?_append_of_ne_nil _ (by rw [hspots]; simp)] at hn
    exact p.spots_sublist.subset (List.mem_of_getLast? hn)
  have above := (h.drawn.numbers.bounds member).1
  have count₂ : d₂.drawing.count = d.count + 1 := congrArg Drawing.count h.begun
  have number := h.number
  rw [h.firsts] at hs
  rcases List.mem_cons.mp hs with rfl | old
  · omega
  · have := firsts s old
    omega

theorem drawsElse (h : d.AfterThen ports below under condition c p d₂ d₃ below₃)
    (firsts : ∀ s ∈ d.firsts, s.number ≤ d.count) {text : String} (filled : text ≠ "") :
    ∃ e d₅ d', (Body.run text .done).drawBlock d₃ = some d₅ ∧ d₅.leaveIf .thenElse = some d' ∧
      Drawn (.block e text .done) [] d₃.drawing d₅.drawing ∧
      Drawn (.branch c condition p (.block e text .done) .done) ports d.drawing d'.drawing ∧
      d'.strokes = d₃.strokes ++ Stroke.node e text "box" ::
        [.edge (.south c) (p.start c) [("label", "true"), ("headport", "n"), ("tailport", "w")],
          .edge (.south c) e [("label", "false"), ("headport", "n"), ("tailport", "e")]] ∧
      Frame d.level d d' ∧ ∃ below', d'.EndsAt (p.exits [] ++ [.south e]) below' under ∧
      Headed below' ∧
        (∀ y ∈ below', Known d'.count y) ∧ ∀ y ∈ below', y ∈ below ∨ Beyond d.count y := by
  obtain ⟨e, n, x, tail, d₅, drewElse, numberElse, roleElse, newest, ⟨xPorts, xCondition⟩,
    drawing₅, firsts₅, lasts₅, ends₅, held₅, level₅, branches₅, loops₅⟩ :=
    h.endsAt.drawElse h.role h.headed h.held h.branches (h.fresh firsts) filled
  have drawnElse : Drawn (.block e text .done) [] d₃.drawing d₅.drawing := by
    rw [drawing₅]
    exact .block numberElse roleElse.2.2.2 text []
  have rising := (drawnElse.rising h.sorted.rising h.sorted.bounded).1
  have nodes₅ : d₅.nodes = d₃.nodes ++ [e] := drawnElse.nodes
  have strokes₅ : d₅.strokes = d₃.strokes ++ [.node e text "box"] :=
    congrArg Drawing.strokes drawing₅
  obtain ⟨spots, hspots⟩ := Plan.spots_of_ne h.nonempty c
  have nextElse : d₅.next? n = some e := by
    obtain ⟨before, hbefore⟩ := List.getLast?_eq_some_iff.mp newest
    refine next?_middle before [] ?_ rising
    rw [nodes₅, hbefore, List.append_assoc]
    rfl
  have nextThen : d₅.next? c = some (p.start c) := by
    refine next?_middle d.nodes (spots ++ [e]) ?_ rising
    rw [nodes₅, h.nodes, hspots]
    simp
  have hfirsts : d₅.firsts = n :: c :: d.firsts := by rw [firsts₅, h.firsts]
  have left :=
    h.headed.leaveIf xCondition hfirsts nextElse nextThen lasts₅ ends₅ (branches₅.trans h.branches)
  have drawn := h.drawn
  rw [h.begun] at drawn
  have whole : Drawn (.branch c condition p (.block e text .done) .done) ports d.drawing _ :=
    .branch h.number (by rw [h.role]; decide) h.nonempty (fun same => by cases same) drawn drawnElse
  refine ⟨e, d₅, _, drewElse, left, drawnElse, whole, ?_,
    ⟨held₅, level₅.trans h.level, rfl, loops₅.trans h.loops, rfl⟩,
    below₃.erase x, ⟨?_, ?_, ?_⟩, h.headed.erase xCondition, ?_,
    fun y hy => h.old y (List.mem_of_mem_erase hy)⟩
  · change d₅.strokes ++ _ = _
    rw [strokes₅, List.append_assoc]
    rfl
  · exact ⟨_, rfl, by simp [Tip.ports, Tip.portsAll, Tip.spot, xPorts], rfl, rfl⟩
  · exact ⟨_, rfl, by simp [Tip.ports_join, Tip.spot, Tip.ports, xPorts]⟩
  · refine ⟨e, ?_, roleElse.2.2.1, ?_⟩
    · change d₅.nodes.getLast? = some e
      rw [nodes₅, List.getLast?_concat]
    · rw [Tip.addTo, if_pos (by simp [Tip.members])]
  · intro y hy
    refine known_mono (h.known y (List.mem_of_mem_erase hy)) ?_
    change d₃.count ≤ d₅.count
    have : d₅.count = d₃.count + 1 := drawnElse.count
    omega

end Sketch.AfterThen

theorem Sketch.Ready.drawsIf {d : Sketch} {ports : List Port} {below under : List Tip}
    (ready : d.Ready ports below under) {yes : Body} (asPlan : yes.DrawsAsPlan)
    (shape : yes.IsRun ∨ yes.endsInBranch = true) {text : String} (filled : text ≠ "")
    (condition : String) :
    ∃ c p e d', drawIf condition yes (.block (.run text .done)) d = some d' ∧ p.body = yes ∧
      Drawn (.branch c condition p (.block e text .done) .done) ports d.drawing d'.drawing ∧
      Frame d.level d d' ∧ ∃ below', d'.EndsAt (p.exits [] ++ [.south e]) below' under ∧
        Headed below' ∧ (∀ y ∈ below', Known d'.count y) ∧ ∀ y ∈ below', y ∈ below ∨
        Beyond d.count y := by
  obtain ⟨c, p, d₂, d₃, below₃, entered, finished, body, after⟩ :=
    ready.drawsThen asPlan shape condition
  obtain ⟨e, d₅, d', drewElse, left, _, drawn, _, rest⟩ :=
    after.drawsElse ready.sorted.firsts filled
  exact ⟨c, p, e, d', drawIf_of_parts entered finished drewElse left, body, drawn, rest⟩

theorem Sketch.Opens.drawsRun {d : Sketch} {ports : List Port} {below under : List Tip}
    (opens : d.Opens ports below under) (held : d.held = "") {text : String} (filled : text ≠ "") :
    ∃ s d', (d.hold text).flush = some d' ∧ Drawn (.block s text .done) ports d.drawing d'.drawing ∧
      Frame d.level d d' ∧ d'.EndsAt [.south s] below under := by
  have text₁ : (d.hold text).held = text := by simp [hold, held]
  have opens₁ : (d.hold text).Opens ports below under := opens
  have role := (d.hold text).blockRole_plain
  have flushed := opens₁.flush (by rw [text₁]; exact filled)
  rw [text₁] at flushed
  refine ⟨_, _, flushed, .block rfl role.2.2.2 text ports, ⟨rfl, rfl, rfl, rfl, rfl⟩, ?_⟩
  exact endsAt_putting (d := { d.hold text with held := "" })
    (s := ⟨(d.hold text).blockRole, d.count + 1⟩) ⟨role.1, role.2.1, role.2.2.1⟩ text "box" ports
    below under

theorem Sketch.EndsAt.ready {d d' : Sketch} {p : Plan} {ports ports' : List Port}
    {below below' under' under : List Tip} (endsAt : d'.EndsAt ports' below' under')
    (ready : d.Ready ports below under) (drawn : Drawn p ports d.drawing d'.drawing)
    (frame : Frame d.level d d') (known : ∀ y ∈ below', Known d'.count y) :
    d'.Ready ports' below' under' := by
  have noBranch : d'.NoBranchAtLevel := by
    unfold NoBranchAtLevel
    rw [frame.branches, frame.level]
    exact ready.noBranch
  exact ⟨frame.held, ready.sorted.drawn drawn frame.firsts, noBranch, endsAt.opens noBranch, known⟩

theorem Sketch.Frame.trans {l m : Int} {d e f : Sketch} (first : Frame l d e)
    (second : Frame m e f) :
    Frame m d f where
  held := second.held
  level := second.level
  branches := second.branches.trans first.branches
  loops := second.loops.trans first.loops
  firsts := second.firsts.trans first.firsts

theorem Body.endsInBranch_branch {condition : String} {yes rest : Body} {no : Otherwise}
    (more : rest ≠ done) : (branch condition yes no rest).endsInBranch = rest.endsInBranch := by
  cases rest with
  | done => exact absurd rfl more
  | _ => rfl

theorem Body.not_endsInBranch_of_isRun {b : Body} (h : b.IsRun) : b.endsInBranch = false := by
  obtain ⟨text, rfl⟩ := h
  rfl

/-- Where a body that is no single run may end, its rest may end after the first statement. -/
theorem Body.ends_rest (rest : Body) {ends : Bool} {last free : Prop}
    (shape : ends = true ∨ last ∨ free) (single : ¬ last)
    (same : rest ≠ done → ends = rest.endsInBranch) :
    rest.endsInBranch = true ∨ rest = done ∨ free := by
  by_cases none : rest = done
  · exact .inr (.inl none)
  · rcases shape with ends | run | free
    · exact .inl (same none ▸ ends)
    · exact absurd run single
    · exact .inr (.inr free)

theorem Body.DrawsAsPlan.after {rest : Body} (asPlan : rest.DrawsAsPlan) {d d₁ : Sketch}
    {p : Plan} {ports : List Port} {below₁ under : List Tip}
    (drawn : Drawn p ports d.drawing d₁.drawing) (frame : Sketch.Frame d.level d d₁)
    (endsAt : d₁.EndsAt (p.exits ports) below₁ under)
    (ready : d₁.Ready (p.exits ports) below₁ under)
    (shape : rest.endsInBranch = true ∨ rest = .done ∨ d.branches = []) :
    ∃ q d', rest.finish d₁ = some d' ∧ q.body = rest ∧
      Drawn q (p.exits ports) d₁.drawing d'.drawing ∧
      Sketch.Frame (d.level - 1) d d' ∧ ∃ below',
      d'.EndsAt ((p.append q).exits ports) below' under ∧
        (Headed below₁ → Headed below') ∧ (∀ y ∈ below', Known d'.count y) ∧
        ∀ y ∈ below', y ∈ below₁ ∨ Beyond d.count y := by
  by_cases last : rest = .done
  · subst last
    refine ⟨.done, d₁.lower, finish_held ready.held, rfl,
      Drawn.done _ _, ?_, below₁, ?_, id, ready.known, fun y => .inl⟩
    · exact frame.trans ⟨frame.held, by rw [Sketch.lower, frame.level], rfl, rfl, rfl⟩
    · rw [Plan.exits_append]
      exact endsAt.lower
  · have single (run : rest.IsRun) : d₁.lower.Opens (p.exits ports) below₁ under := by
      have free : d.branches = [] := by
        rcases shape with ends | done | free
        · rw [not_endsInBranch_of_isRun run] at ends
          cases ends
        · exact absurd done last
        · exact free
      refine endsAt.lower.opens fun b hb => ?_
      have : d₁.lower.branches = [] := frame.branches.trans free
      rw [this] at hb
      cases hb
    obtain ⟨q, d', finished, body, drawnRest, frameRest, endsAtRest⟩ := asPlan d₁ _ _ _ ready single
      (shape.imp_right fun h => .inr (frame.branches.trans (h.resolve_left last)))
    obtain ⟨below', endsAt', headed, known, old⟩ := endsAtRest last
    have grown : d₁.count = d.count + p.all.length := drawn.count
    refine ⟨q, d', finished, body, drawnRest, ?_, below', ?_, headed, known, fun y hy =>
      (old y hy).imp_right fun new => beyond_mono new (by omega)⟩
    · rw [← frame.level]
      exact frame.trans frameRest
    · rw [Plan.exits_append]
      exact endsAt'

theorem Body.drawsAsPlan : (b : Body) → b.Structured false → b.Merged → b.DrawsAsPlan
  | .done, _, _ => by
      intro d ports below under ready _ _
      exact ⟨.done, d.lower, finish_held ready.held, rfl, Drawn.done ports d.drawing,
        ⟨ready.held, rfl, rfl, rfl, rfl⟩, fun h => absurd rfl h⟩
  | .run text rest, structured, merged => by
      intro d ports below under ready single shape
      by_cases last : rest = .done
      · subst last
        obtain ⟨s, d', flushed, drawn, frame, endsAt⟩ :=
          (single ⟨text, rfl⟩).drawsRun ready.held merged.1
        have count : d'.count = d.count + 1 := drawn.count
        refine ⟨.block s text .done, d', (finish_single d text).trans flushed, rfl, drawn,
          ⟨frame.held, frame.level, frame.branches, frame.loops, frame.firsts⟩,
          fun _ => ⟨below, endsAt, id, fun y hy => ?_, fun y => .inl⟩⟩
        exact known_mono (ready.known y hy) (by omega)
      · obtain ⟨s, d₁, flushed, drawn, frame, endsAt⟩ := ready.opens.drawsRun ready.held merged.1
        have count : d₁.count = d.count + 1 := drawn.count
        have ready₁ := endsAt.ready ready drawn frame fun y hy =>
          known_mono (ready.known y hy) (by omega)
        have shape :=
          ends_rest rest shape (fun ⟨_, same⟩ => by cases same; exact last rfl) fun _ => rfl
        obtain ⟨q, d', finished, body, drawnRest, frame, endsAt⟩ :=
          (drawsAsPlan rest structured merged.2.2).after drawn frame endsAt ready₁ shape
        refine ⟨.block s text q, d', ?_, by rw [Plan.body, body], drawn.append drawnRest, frame,
          fun _ => endsAt⟩
        rw [finish_run text rest last merged, flushed]
        exact finished
  | .branch condition yes no rest, structured, merged => by
      obtain ⟨⟨structuredYes, shapeYes⟩, ⟨text, rfl⟩, structured⟩ := structured
      obtain ⟨mergedYes, mergedNo, merged⟩ := merged
      intro d ports below under ready single shape
      obtain ⟨c, p, e, d₁, drew, bodyYes, drawn, frame, below₁, endsAt, headed, known, old⟩ :=
        ready.drawsIf (drawsAsPlan yes structuredYes mergedYes) shapeYes mergedNo.1 condition
      have shape := ends_rest rest shape (fun ⟨_, same⟩ => by cases same) endsInBranch_branch
      obtain ⟨q, d', finished, body, drawnRest, frame, below', endsAt, headed', known, old'⟩ :=
        (drawsAsPlan rest structured merged).after drawn frame endsAt
          (endsAt.ready ready drawn frame known) shape
      refine ⟨.branch c condition p (.block e text .done) q, d', ?_, ?_,
        drawn.append drawnRest, frame,
        fun _ => ⟨below', endsAt, fun _ => headed' headed, known,
          fun y hy => (old' y hy).elim (old y) .inr⟩⟩
      · rw [finish_branch, drew]
        exact finished
      · rw [Plan.body, Plan.body, Plan.body, bodyYes, body]
  | .loop _ _ _, structured, _ => absurd structured.1 (by decide)

end GoFlow
