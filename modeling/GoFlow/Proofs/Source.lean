import GoFlow.Proofs.Perform

/-! Sources made of functions whose bodies consist of assignments, branches and loops, and the trees
that show them. Everything else in such a tree is plain: it holds no function literal, and without
one the grammar puts no statement into it. A builder passes over what is plain. -/

namespace GoFlow

mutual

/-- What stands in a block, in order. Assignments that follow one another are one run. -/
inductive Body where
  | done
  | run (text : String) (rest : Body)
  | branch (condition : String) (yes : Body) (no : Otherwise) (rest : Body)
  | loop (condition : String) (body rest : Body)

/-- What follows the then block of a branch. -/
inductive Otherwise where
  | nothing
  | block (body : Body)
  | elseIf (condition : String) (yes : Body) (no : Otherwise)

end

structure Function where
  name : String
  body : Body

namespace Body

def prepend (line : String) : Body → Body
  | run text rest => run (line ++ text) rest
  | b => run line b

end Body

mutual

/-- Every run has a text, and no run follows another. -/
def Body.Merged : Body → Prop
  | .done => True
  | .run text rest => text ≠ "" ∧ (∀ text' rest', rest ≠ .run text' rest') ∧ rest.Merged
  | .branch _ yes no rest => yes.Merged ∧ no.Merged ∧ rest.Merged
  | .loop _ body rest => body.Merged ∧ rest.Merged

def Otherwise.Merged : Otherwise → Prop
  | .nothing => True
  | .block body => body.Merged
  | .elseIf _ yes no => yes.Merged ∧ no.Merged

end

mutual

/-- The categories that a phrase asks for. -/
def Phrase.parts : Phrase → List Category
  | .part _ c _ => [c]
  | .seq ps | .choice ps | .maybe ps => partsAll ps
  | .many p | .oneOrMore p => p.parts
  | _ => []

def Phrase.partsAll : List Phrase → List Category
  | [] => []
  | p :: ps => p.parts ++ partsAll ps

end

namespace Category

/-- The categories that may stand directly within one. -/
def parts (c : Category) : List Category :=
  match c.production with
  | .plain ps => Phrase.partsAll ps
  | .grown bases suffixes => c :: (Phrase.partsAll bases ++ Phrase.partsAll (suffixes.map Prod.snd))

/-- The categories that hold statements or declarations of their own. -/
def holders : List Category :=
  [.sourceFile, .declaration, .constDecl, .constSpec, .functionDecl, .methodDecl, .varDecl, .block,
    .statementList, .statement, .simpleStmt, .assignment, .labeledStmt, .ifStmt, .switchStmt,
    .exprSwitchStmt, .exprCaseClause, .typeSwitchStmt, .typeCaseClause, .selectStmt, .commClause,
    .forStmt, .forClause]

/-- The categories around a statement. -/
def wrappers : List Category := [.statementList, .statement, .simpleStmt]

/-- Statements come into other categories by function literals only. -/
theorem parts_free (c : Category) (free : c ∉ holders) (noLiteral : c ≠ .functionLit) :
    ∀ k ∈ c.parts, k ∉ holders := by
  revert free noLiteral
  cases c <;> decide

end Category

def Event.category? : Event → Option Category
  | .enter h _ | .leave h _ => some h.category
  | .leaf _ => none

/-- The parts of what is entered are such as the grammar allows there. -/
def Event.Lawful : Event → Prop
  | .enter h us => ∀ u ∈ us, ∀ c ∈ u.category?, c ∈ h.category.parts
  | _ => True

instance : DecidablePred Event.Lawful
  | .enter h us => inferInstanceAs (Decidable (∀ u ∈ us, ∀ c ∈ u.category?, c ∈ h.category.parts))
  | .leave _ _ | .leaf _ => inferInstanceAs (Decidable True)

namespace Tree

/-- Every part of the tree is one the grammar allows there. -/
def Lawful (t : Tree) : Prop :=
  ∀ h us, Event.enter h us ∈ t.walk → ∀ u ∈ us, ∀ c, u.category? = some c → c ∈ h.category.parts

theorem lawful_iff {t : Tree} : t.Lawful ↔ ∀ e ∈ t.walk, e.Lawful := by
  constructor
  · intro lawful e he
    cases e with
    | enter h us => exact lawful h us he
    | leave _ _ => trivial
    | leaf _ => trivial
  · exact fun all h us he => all _ he

instance (t : Tree) : Decidable t.Lawful := decidable_of_iff _ lawful_iff.symm

/-- A tree in which no function literal occurs, and whose own category holds no statements. -/
structure Plain (t : Tree) : Prop where
  lawful : t.Lawful
  literals : ∀ h us, Event.enter h us ∈ t.walk → h.category ≠ .functionLit
  root : ∀ c, t.category? = some c → c ∉ Category.holders

theorem mem_walkAll {e : Event} {ts : List Tree} : e ∈ walkAll ts ↔ ∃ t ∈ ts, e ∈ t.walk := by
  induction ts with
  | nil => simp [walkAll]
  | cons t ts ih => simp [walkAll, ih]

theorem enter_mem_walk {e : Event} {h : Head} {us : List Tree} {u : Tree} (hu : u ∈ us)
    (he : e ∈ u.walk) : e ∈ (node h us).walk := by
  rw [walk]
  exact List.mem_cons_of_mem _ (List.mem_append_left _ (mem_walkAll.mpr ⟨u, hu, he⟩))

theorem Lawful.child {h : Head} {us : List Tree} (lawful : (node h us).Lawful) {u : Tree}
    (hu : u ∈ us) : u.Lawful :=
  fun k vs hk => lawful k vs (enter_mem_walk hu hk)

theorem Lawful.part {h : Head} {us : List Tree} (lawful : (node h us).Lawful) {u : Tree}
    (hu : u ∈ us) (c : Category) (hc : u.category? = some c) : c ∈ h.category.parts :=
  lawful h us (by rw [walk]; exact List.mem_cons_self) u hu c hc

/-- What the root of a lawful tree has, and what the grammar hands on from each part to its own
parts, all parts have. -/
theorem Lawful.spread {P : Category → Prop} {t : Tree} (lawful : t.Lawful)
    (handed : ∀ h us, Event.enter h us ∈ t.walk → P h.category → ∀ c ∈ h.category.parts, P c)
    (root : ∀ c, t.category? = some c → P c) {e : Event} (he : e ∈ t.walk) (c : Category)
    (hc : e.category? = some c) : P c := by
  match t with
  | .leaf l =>
      rw [walk, List.mem_singleton] at he
      subst he
      cases hc
  | .node h us =>
      rw [walk, List.mem_cons, List.mem_append, List.mem_singleton] at he
      rcases he with rfl | inner | rfl
      · exact root c hc
      · obtain ⟨u, hu, he⟩ := mem_walkAll.mp inner
        have here : Event.enter h us ∈ (node h us).walk := by rw [walk]; exact List.mem_cons_self
        refine (lawful.child hu).spread (fun k vs hk => handed k vs (enter_mem_walk hu hk))
          ?_ he c hc
        exact fun k hk => handed h us here (root _ rfl) k (lawful.part hu k hk)
      · exact root c hc
termination_by sizeOf t
decreasing_by
  have := List.sizeOf_lt_of_mem hu
  simp
  omega

/-- Nothing that is entered or left within a plain tree holds statements. -/
theorem Plain.events {t : Tree} (p : t.Plain) {e : Event} (he : e ∈ t.walk) (c : Category)
    (hc : e.category? = some c) : c ∉ Category.holders :=
  p.lawful.spread (fun h us here free => Category.parts_free h.category free (p.literals h us here))
    p.root he c hc

/-- What is entered is left, and only that. -/
theorem entered_iff_left (t : Tree) {h : Head} {us : List Tree} :
    .enter h us ∈ t.walk ↔ .leave h us ∈ t.walk := by
  match t with
  | .leaf l => simp [walk]
  | .node k vs =>
      have inside : (∃ v ∈ vs, Event.enter h us ∈ v.walk) ↔ ∃ v ∈ vs, Event.leave h us ∈ v.walk :=
        exists_congr fun v => and_congr_right fun hv => v.entered_iff_left
      simp only [walk, List.mem_cons, List.mem_append, mem_walkAll, List.not_mem_nil, inside,
        Event.enter.injEq, Event.leave.injEq, reduceCtorEq, or_false, false_or]
      exact or_comm
termination_by sizeOf t
decreasing_by
  have := List.sizeOf_lt_of_mem hv
  simp
  omega

end Tree

def Enters (c : Category) (es : List Event) : Prop := ∃ h us, .enter h us ∈ es ∧ h.category = c

def Event.entered? : Event → Option Category
  | .enter h _ => some h.category
  | _ => none

theorem enters_iff {c : Category} {es : List Event} :
    Enters c es ↔ ∃ e ∈ es, e.entered? = some c := by
  constructor
  · rintro ⟨h, us, member, rfl⟩
    exact ⟨_, member, rfl⟩
  · rintro ⟨e, member, entered⟩
    cases e with
    | enter h us => exact ⟨h, us, member, Option.some.inj entered⟩
    | leave _ _ => cases entered
    | leaf _ => cases entered

instance (c : Category) (es : List Event) : Decidable (Enters c es) :=
  decidable_of_iff _ enters_iff.symm

theorem Enters.mono {c : Category} {es fs : List Event} (enters : Enters c es) (sub : es ⊆ fs) :
    Enters c fs := by
  obtain ⟨h, us, member, category⟩ := enters
  exact ⟨h, us, sub member, category⟩

theorem enters_iff_leaves {c : Category} {ts : List Tree} :
    Enters c (Tree.walkAll ts) ↔ ∃ h us, .leave h us ∈ Tree.walkAll ts ∧ h.category = c := by
  refine exists_congr fun h => exists_congr fun us => and_congr_left fun _ => ?_
  rw [Tree.mem_walkAll, Tree.mem_walkAll]
  exact exists_congr fun t => and_congr_right fun _ => t.entered_iff_left

theorem Tree.enters_category (t : Tree) {e : Event} (he : e ∈ t.walk) {c : Category}
    (hc : e.category? = some c) : Enters c t.walk := by
  cases e with
  | leaf l => cases hc
  | enter h us => exact ⟨h, us, he, Option.some.inj hc⟩
  | leave h us => exact ⟨h, us, t.entered_iff_left.mpr he, Option.some.inj hc⟩

namespace Move

theorem heed_event_free {e : Event} (free : ∀ c, e.category? = some c → c ∉ Category.holders)
    {b : Builder} (phase : b.phase = .none) (es : List Event) :
    b.perform (heed (e :: es)) = b.perform (heed es) := by
  rw [heed]
  cases hook : Hook.ofEvent? e with
  | none => rfl
  | some p =>
      obtain ⟨h, ts⟩ := p
      suffices b.perform (h.run ts) = (.ok (), b) from Builder.perform_bind_ok this _
      have idle : b.perform isDeclaring = (.ok false, b) := by
        rw [isDeclaring, Builder.perform_bind_ok (Builder.perform_get b), phase]
        rfl
      cases e with
      | leaf l => cases hook
      | enter head us =>
          obtain ⟨k, hk, same⟩ := Option.map_eq_some_iff.mp hook
          cases same
          have outside := free _ rfl
          cases hc : head.category <;> simp [hc, Hook.onEnter?, Category.holders] at hk outside
      | leave head us =>
          obtain ⟨k, hk, same⟩ := Option.map_eq_some_iff.mp hook
          cases same
          have outside := free _ rfl
          cases hc : head.category <;> simp [hc, Hook.onLeave?, Category.holders] at hk outside <;>
            subst hk
          · rw [Hook.run, leaveNames, Builder.perform_bind_ok idle]
            rfl
          · simp [Hook.run, leaveValues, Builder.perform_bind, phase]
          · rw [Hook.run, leaveType, Builder.perform_bind_ok idle]
            rfl

theorem heed_plain {t : Tree} (p : t.Plain) {b : Builder} (phase : b.phase = .none)
    (es : List Event) : b.perform (heed (t.walk ++ es)) = b.perform (heed es) := by
  have free : ∀ e ∈ t.walk, ∀ c, e.category? = some c → c ∉ Category.holders :=
    fun e he => p.events he
  generalize t.walk = fs at free
  induction fs with
  | nil => rfl
  | cons e fs ih =>
      rw [List.cons_append, heed_event_free (free e List.mem_cons_self) phase]
      exact ih fun d hd => free d (List.mem_cons_of_mem e hd)

end Move

/-- The lines of an assignment, one for each name that has a value. -/
def assignmentLines (op : String) : List String → List String → String
  | n :: names, v :: values => n ++ " " ++ op ++ " " ++ v ++ " \n" ++ assignmentLines op
      names values
  | _, _ => ""

mutual

inductive Statements : List Tree → Body → Prop
  | none : Statements [] .done
  | plain {t : Tree} {ts : List Tree} {b : Body} (plain : t.Plain) (rest : Statements ts b) :
      Statements (t :: ts) b
  | within {h : Head} {us ts : List Tree} {b : Body} (wrapper : h.category ∈ Category.wrappers)
      (inner : Statements (us ++ ts) b) : Statements (.node h us :: ts) b
  | assignment {h : Head} {left op right : Tree} {ts : List Tree} {b : Body}
      (category : h.category = .assignment) (plain : ∀ t ∈ [left, op, right], t.Plain)
      (value : right.itemTexts ≠ []) (rest : Statements ts b) :
      Statements (.node h [left, op, right] :: ts)
        (b.prepend (assignmentLines op.text left.itemTexts right.itemTexts))
  | branch {h : Head} {us ts : List Tree} {condition : String} {yes rest : Body} {no : Otherwise}
      (category : h.category = .ifStmt) (parts : BranchParts us condition yes no)
      (after : Statements ts rest) : Statements (.node h us :: ts) (.branch condition yes no rest)
  | loop {h : Head} {keyword condition block : Tree} {ts : List Tree} {body rest : Body}
      (category : h.category = .forStmt) (plain : ∀ t ∈ [keyword, condition], t.Plain)
      (inside : Block block body) (after : Statements ts rest) :
      Statements (.node h [keyword, condition, block] :: ts) (.loop condition.text body rest)

inductive Block : Tree → Body → Prop
  | intro {h : Head} {us : List Tree} {b : Body} (category : h.category = .block)
      (statements : Statements us b) : Block (.node h us) b

/-- The children of an if statement show its parts. -/
inductive BranchParts : List Tree → String → Body → Otherwise → Prop
  | bare {keyword condition block : Tree} {yes : Body}
      (plain : ∀ t ∈ [keyword, condition], t.Plain) (first : Block block yes) :
      BranchParts [keyword, condition, block] condition.text yes .nothing
  | withElse {keyword condition block marker other : Tree} {yes no : Body}
      (plain : ∀ t ∈ [keyword, condition, marker], t.Plain) (first : Block block yes)
      (second : Block other no) :
      BranchParts [keyword, condition, block, marker, other] condition.text yes (.block no)
  | withElseIf {keyword condition block marker : Tree} {h : Head} {us : List Tree}
      {condition' : String} {yes yes' : Body} {no : Otherwise}
      (plain : ∀ t ∈ [keyword, condition, marker], t.Plain) (first : Block block yes)
      (category : h.category = .ifStmt) (parts : BranchParts us condition' yes' no) :
      BranchParts [keyword, condition, block, marker, .node h us] condition.text yes
        (.elseIf condition' yes' no)

end

inductive Declares : Tree → Function → Prop
  | intro {h : Head} {keyword name block : Tree} {us : List Tree} {body : Body}
      (category : h.category = .functionDecl) (plain : ∀ t ∈ keyword :: name :: us, t.Plain)
      (inside : Block block body) :
      Declares (.node h (keyword :: name :: us ++ [block])) ⟨name.text, body⟩

/-- Among the trees are the functions, in order; the others are plain. -/
inductive Functions : List Tree → List Function → Prop
  | none : Functions [] []
  | plain {t : Tree} {ts : List Tree} {fs : List Function} (plain : t.Plain)
      (rest : Functions ts fs) : Functions (t :: ts) fs
  | declares {t : Tree} {f : Function} {ts : List Tree} {fs : List Function} (first : Declares t f)
      (rest : Functions ts fs) : Functions (t :: ts) (f :: fs)

/-- The tree shows a source file that consists of the functions. -/
inductive Shows : Tree → List Function → Prop
  | intro {h : Head} {ts : List Tree} {fs : List Function} (category : h.category = .sourceFile)
      (functions : Functions ts fs) : Shows (.node h ts) fs

/-! Trees written out by hand. -/

namespace Tree

def word (text : String) : Tree := .leaf (.token ⟨.identifier, text, 0, 0, .start, false⟩)

def of (c : Category) (ts : List Tree) : Tree := .node ⟨c, none, []⟩ ts

def statement (t : Tree) : Tree := of .statement [t]

def assign (name value : String) : Tree :=
  of .simpleStmt
    [of .assignment [of .expressionList [word name], word "=", of .expressionList [word value]]]

def braces (ts : List Tree) : Tree :=
  of .block [word "\x7b", of .statementList (ts.map statement), word "\x7d"]

def ifThen (condition : String) (yes : List Tree) : Tree :=
  of .ifStmt [word "if", word condition, braces yes]

def ifElse (condition : String) (yes no : List Tree) : Tree :=
  of .ifStmt [word "if", word condition, braces yes, word "else", braces no]

def forLoop (condition : String) (body : List Tree) : Tree :=
  of .forStmt [word "for", word condition, braces body]

def func (name : String) (body : List Tree) : Tree :=
  of .functionDecl [word "func", word name, of .signature [], braces body]

theorem word_plain (text : String) : (word text).Plain where
  lawful := by simp [Lawful, word, walk]
  literals := by simp [word, walk]
  root := nofun

theorem of_plain {c : Category} (free : c ∉ Category.holders) (noLiteral : c ≠ .functionLit)
    {ts : List Tree} (parts : ∀ t ∈ ts, ∀ k, t.category? = some k → k ∈ c.parts)
    (plain : ∀ t ∈ ts, t.Plain) : (of c ts).Plain := by
  have entered {h : Head} {us : List Tree} (e : Event.enter h us ∈ (of c ts).walk) :
      (h.category = c ∧ us = ts) ∨ ∃ t ∈ ts, Event.enter h us ∈ t.walk := by
    rw [of, walk, List.mem_cons, List.mem_append, mem_walkAll] at e
    rcases e with same | inner | last
    · cases same
      exact .inl ⟨rfl, rfl⟩
    · exact .inr inner
    · cases List.mem_singleton.mp last
  refine ⟨fun h us e => ?_, fun h us e => ?_, ?_⟩
  · rcases entered e with ⟨rfl, rfl⟩ | ⟨t, ht, inner⟩
    · exact parts
    · exact (plain t ht).lawful h us inner
  · rcases entered e with ⟨rfl, _⟩ | ⟨t, ht, inner⟩
    · exact noLiteral
    · exact (plain t ht).literals h us inner
  · rintro k ⟨⟩
    exact free

theorem item_plain (text : String) : (of .expressionList [word text]).Plain :=
  of_plain (by decide) (by decide) (by simp [word, category?]) (by simp [word_plain])

end Tree

open GoFlow.Tree

theorem Statements.close : Statements [word "\x7d"] .done := .plain (word_plain _) .none

theorem Block.braces {ts : List Tree} {b : Body}
    (inner : Statements (ts.map statement ++ [word "\x7d"]) b) : Block (Tree.braces ts) b :=
  .intro rfl (.plain (word_plain _) (.within (by decide) inner))

namespace Statements

variable {ts us vs : List Tree} {b yes no body : Body}

theorem assign (name value : String) (rest : Statements ts b) :
    Statements (statement (Tree.assign name value) :: ts)
      (b.prepend (assignmentLines "=" [name] [value])) :=
  .within (by decide) (.within (by decide) (.assignment rfl
    (by simp [item_plain, word_plain]) (by simp [of, itemTexts, children, everySecond]) rest))

theorem ifThen (condition : String) (first : Block (Tree.braces us) yes) (rest : Statements ts b) :
    Statements (statement (Tree.ifThen condition us) :: ts) (.branch condition yes .nothing b) :=
  .within (by decide) (.branch rfl (.bare (by simp [word_plain]) first) rest)

theorem ifElse (condition : String) (first : Block (Tree.braces us) yes)
    (second : Block (Tree.braces vs) no) (rest : Statements ts b) :
    Statements (statement (Tree.ifElse condition us vs) :: ts)
      (.branch condition yes (.block no) b) :=
  .within (by decide) (.branch rfl (.withElse (by simp [word_plain]) first second) rest)

theorem forLoop (condition : String) (inside : Block (Tree.braces us) body)
    (rest : Statements ts b) :
    Statements (statement (Tree.forLoop condition us) :: ts) (.loop condition body b) :=
  .within (by decide) (.loop rfl (by simp [word_plain]) inside rest)

end Statements

theorem Declares.func (name : String) {ts : List Tree} {b : Body}
    (inside : Block (Tree.braces ts) b) : Declares (Tree.func name ts) ⟨name, b⟩ := by
  have signature : (of .signature []).Plain := of_plain (by decide) (by decide) nofun nofun
  exact @Declares.intro ⟨.functionDecl, none, []⟩ (word "func") (word name) (Tree.braces ts)
    [of .signature []] b rfl (by simp [word_plain, signature]) inside

end GoFlow
