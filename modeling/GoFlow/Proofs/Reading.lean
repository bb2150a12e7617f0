import GoFlow.Proofs.Lines
import GoFlow.Proofs.Places

/-! How a declaration is read. Once its names are read it is told types and values, wherever in it
they stand. They become operands, of which there are never fewer than before; so it takes few of
them until there are more than the names, the type and the values that the declaration is written
from. -/

namespace GoFlow

open Move Builder

/-- What a declaration is told once its names are read: a type or values, by their parts. -/
inductive Signal where
  | type (parts : List Tree)
  | values (parts : List Tree)

def Event.signal? : Event → Option Signal
  | .leave h us =>
      match h.category with
      | .type => some (.type us)
      | .expressionList => some (.values us)
      | _ => none
  | _ => none

namespace Signal

def category : Signal → Category
  | type _ => .type
  | values _ => .expressionList

def parts : Signal → List Tree
  | type us | values us => us

def hook : Signal → Hook
  | type _ => .leaveType
  | values _ => .leaveValues

end Signal

theorem Event.signal?_eq_some {e : Event} {s : Signal} :
    e.signal? = some s ↔ ∃ h, e = .leave h s.parts ∧ h.category = s.category := by
  constructor
  · intro told
    unfold Event.signal? at told
    split at told
    · split at told <;> cases told <;> exact ⟨_, rfl, ‹_›⟩
    · cases told
  · rintro ⟨h, rfl, category⟩
    cases s <;> rw [Event.signal?, category] <;> rfl

def Tree.told (ts : List Tree) : List Signal := (walkAll ts).filterMap Event.signal?

namespace Builder

def Declaring (b : Builder) : Prop := b.phase = .constDecl ∨ b.phase = .varDecl

/-- No declaration is being read, and none has left anything behind. -/
structure Idle (b : Builder) : Prop where
  phase : b.phase = .none
  operands : b.operands = []
  typed : b.typed = false
  namesRead : b.namesRead = false
  valuesRead : b.valuesRead = false

/-- The operands on which values are put: earlier values make room. -/
def uncovered (b : Builder) : Option (List Item) :=
  if b.valuesRead then b.operands.tail? else some b.operands

/-- Values are put on operands, and before them a type to be guessed if none was read. -/
def putValues (b : Builder) (us : List Tree) (below : List Item) : Builder :=
  { b with
    operands := items us :: (if b.typed then below else .name "guess" :: below),
    valuesRead := true }

variable {b c : Builder}

theorem Declaring.perform_isDeclaring (declaring : b.Declaring) :
    b.perform isDeclaring = (.ok true, b) := by
  rw [isDeclaring, perform_bind_ok (perform_get b)]
  rcases declaring with phase | phase <;> rw [phase] <;> rfl

theorem Declaring.perform_leaveNames (declaring : b.Declaring) (us : List Tree) :
    b.perform (leaveNames us) =
      (.ok (), if b.namesRead then b
        else { b with namesRead := true, operands := items us :: b.operands }) := by
  rw [leaveNames, perform_bind_ok declaring.perform_isDeclaring, if_pos rfl,
    perform_bind_ok (perform_get b)]
  cases b.namesRead <;> rfl

theorem Declaring.perform_leaveType (declaring : b.Declaring) (us : List Tree) :
    b.perform (leaveType us) =
      match typeText us with
      | .ok text => (.ok (), { b with operands := .name text :: b.operands, typed := true })
      | .error e => (.error e, b) := by
  rw [leaveType, perform_bind_ok declaring.perform_isDeclaring, if_pos rfl]
  cases typeText us <;> rfl

theorem Declaring.perform_leaveValues (declaring : b.Declaring) (us : List Tree) :
    b.perform (leaveValues us) =
      match b.uncovered with
      | some below => (.ok (), b.putValues us below)
      | none => (.error .emptyStack, b) := by
  have told : (decide (b.phase = .constDecl) || decide (b.phase = .varDecl)) = true := by
    simpa [Declaring] using declaring
  have put (c : Builder) (typed : c.typed = b.typed) : c.perform (do
      modify fun b => { b with valuesRead := true }
      if !(← get).typed then pushOperand (.name "guess")
      pushOperand (items us) : Move Unit) = (.ok (), c.putValues us c.operands) := by
    simp only [putValues]
    rw [perform_bind_ok (perform_modify c _), perform_bind_ok (perform_get _)]
    cases c.typed <;> rfl
  rw [leaveValues, perform_bind_ok (perform_get b), perform_bind_ok (perform_get b), told,
    if_pos rfl, perform_bind_ok (perform_get b), uncovered]
  cases read : b.valuesRead with
  | false => exact put b rfl
  | true =>
      rw [if_pos rfl]
      have popped := perform_popOperand b
      cases operands : b.operands with
      | nil =>
          rw [operands] at popped
          exact perform_bind_error popped _
      | cons x below =>
          rw [operands] at popped
          rw [perform_bind_ok popped]
          exact put _ rfl

end Builder

/-- What a declaring builder becomes by a signal. -/
inductive Takes : Signal → Builder → Builder → Prop
  | type {us : List Tree} {text : String} {b : Builder} (read : typeText us = .ok text) :
      Takes (.type us) b { b with operands := .name text :: b.operands, typed := true }
  | values {us : List Tree} {below : List Item} {b : Builder} (room : b.uncovered = some below) :
      Takes (.values us) b (b.putValues us below)

inductive TakesAll : List Signal → Builder → Builder → Prop
  | done {b : Builder} : TakesAll [] b b
  | step {s : Signal} {ss : List Signal} {b c d : Builder} (first : Takes s b c)
      (rest : TakesAll ss c d) : TakesAll (s :: ss) b d

namespace Takes

variable {s : Signal} {b c : Builder}

theorem declaring (takes : Takes s b c) (h : b.Declaring) : c.Declaring := by
  cases takes <;> exact h

theorem namesRead (takes : Takes s b c) : c.namesRead = b.namesRead := by
  cases takes <;> rfl

theorem held (takes : Takes s b c) : c.held = b.held := by
  cases takes <;> rfl

theorem adds (takes : Takes s b c) :
    b.operands.length < c.operands.length ∨
      ∃ us x below, s = .values us ∧ b.typed = true ∧ b.valuesRead = true ∧
      b.operands = x :: below ∧
        c = b.putValues us below := by
  cases takes with
  | type read => exact .inl (Nat.lt_succ_self _)
  | @values us below _ room =>
      unfold uncovered at room
      split at room
      · rename_i read
        cases operands : b.operands with
        | nil =>
            rw [operands] at room
            cases room
        | cons x xs =>
            rw [operands] at room
            cases room
            cases typed : b.typed with
            | true => exact .inr ⟨us, x, below, rfl, rfl, read, rfl, rfl⟩
            | false => exact .inl (by simp [putValues, typed])
      · cases room
        left
        simp only [putValues]
        split <;> simp only [List.length_cons] <;> omega

end Takes

namespace TakesAll

variable {σ : List Signal} {b c : Builder}

theorem held (takesAll : TakesAll σ b c) : c.held = b.held := by
  induction takesAll with
  | done => rfl
  | step first rest ih => exact ih.trans first.held

theorem length_le (takesAll : TakesAll σ b c) : b.operands.length ≤ c.operands.length := by
  induction takesAll with
  | done => exact Nat.le_refl _
  | step first rest ih =>
      refine Nat.le_trans ?_ ih
      rcases first.adds with more | ⟨us, x, below, -, typed, -, operands, rfl⟩
      · exact Nat.le_of_lt more
      · simp [operands, putValues, typed]

theorem replaced (takesAll : TakesAll σ b c) {v : List Tree} {below : List Item}
    (operands : b.operands = items v :: below) (same : c.operands.length = b.operands.length) :
    (∀ us, .type us ∉ σ) ∧
      ∃ vs, (.values v :: σ).getLast? = some (.values vs) ∧ c.operands = items vs :: below := by
  induction takesAll generalizing v with
  | done => exact ⟨fun _ => List.not_mem_nil, v, rfl, operands⟩
  | @step s ss b m c first rest ih =>
      rcases first.adds with more | ⟨us, x, under, rfl, typed, -, split, rfl⟩
      · have := rest.length_le
        omega
      · cases split.symm.trans operands
        have put : (b.putValues us below).operands = items us :: below := by simp [putValues, typed]
        obtain ⟨only, vs, last, rest⟩ := ih put (by rw [same, put, operands]; rfl)
        refine ⟨fun ts member => ?_, vs, ?_, rest⟩
        · simp only [List.mem_cons, reduceCtorEq, false_or] at member
          exact only ts member
        · rw [List.getLast?_cons_cons]
          exact last

/-- Under a type that has been read, values replace earlier ones. -/
theorem replacing (only : ∀ us, .type us ∉ σ) {x : Item} {below : List Item}
    (typed : b.typed = true) (read : b.valuesRead = true) (operands : b.operands = x :: below) :
    ∃ c, TakesAll σ b c ∧ c.operands.length = b.operands.length := by
  induction σ generalizing b x with
  | nil => exact ⟨b, .done, rfl⟩
  | cons s σ ih =>
      cases s with
      | type us => exact absurd List.mem_cons_self (only us)
      | values us =>
          have room : b.uncovered = some below := by simp [uncovered, read, operands]
          have put : (b.putValues us below).operands = items us :: below := by
            simp [putValues, typed]
          obtain ⟨c, rest, same⟩ := ih (b := b.putValues us below)
            (fun ts member => only ts (List.mem_cons_of_mem _ member)) typed rfl put
          exact ⟨c, .step (.values room) rest, by rw [same, put, operands]; rfl⟩

end TakesAll

/-- The ways in which a declaration comes to three operands after its names: by values alone, by a
type and values of which the last ones count, or by two types. -/
inductive Trio (names : Item) : List Signal → List Item → Prop
  | guessed (vs : List Tree) : Trio names [.values vs] [items vs, .name "guess", names]
  | typed {us vs : List Tree} {text : String} {σ : List Signal} (read : typeText us = .ok text)
      (only : ∀ ts, .type ts ∉ σ) (last : σ.getLast? = some (.values vs)) :
      Trio names (.type us :: σ) [items vs, .name text, names]
  | twice {us us' : List Tree} {text text' : String} (read : typeText us = .ok text)
      (read' : typeText us' = .ok text') :
      Trio names [.type us, .type us'] [.name text', .name text, names]

/-- A builder that has read the names of a declaration and nothing else. -/
structure Builder.Named (b : Builder) (names : Item) : Prop where
  declaring : b.Declaring
  operands : b.operands = [names]
  typed : b.typed = false
  namesRead : b.namesRead = true
  valuesRead : b.valuesRead = false

namespace Builder.Named

variable {σ : List Signal} {b c : Builder} {names : Item}

theorem trio (named : b.Named names) (takesAll : TakesAll σ b c) (three : c.operands.length = 3) :
    Trio names σ c.operands := by
  -- with three operands only values can follow, and they do where a type and values have been read
  have full {s : Signal} {σ : List Signal} {d e : Builder} (takes : Takes s d e)
    (takesAll : TakesAll σ e c)
      (operands : d.operands.length = 3) : d.typed = true ∧ d.valuesRead = true := by
    have bound := takesAll.length_le
    rcases takes.adds with more | ⟨_, _, _, -, typed, read, -, -⟩
    · omega
    · exact ⟨typed, read⟩
  cases takesAll with
  | done =>
      rw [named.operands] at three
      cases three
  | step first rest =>
      cases first with
      | @values vs below _ room =>
          obtain rfl : below = [names] := by
            simpa [uncovered, named.valuesRead, named.operands, eq_comm] using room
          have operands : (b.putValues vs [names]).operands = [items vs, .name "guess", names] := by
            simp [putValues, named.typed]
          cases rest with
          | done =>
              rw [operands]
              exact .guessed vs
          | step second rest =>
              have typed := (full second rest (by rw [operands]; rfl)).1
              exact absurd (named.typed.symm.trans typed) (by decide)
      | @type us text _ read =>
          cases rest with
          | done =>
              rw [named.operands] at three
              cases three
          | step second rest =>
              cases second with
              | @type us' text' _ read' =>
                  cases rest with
                  | done =>
                      simp only [named.operands]
                      exact .twice read read'
                  | step third rest =>
                      have valuesRead := (full third rest (by simp [named.operands])).2
                      exact absurd (named.valuesRead.symm.trans valuesRead) (by decide)
              | @values vs below _ room =>
                  obtain rfl : below = [.name text, names] := by
                    simpa [uncovered, named.valuesRead, named.operands, eq_comm] using room
                  obtain ⟨only, ws, last, operands⟩ := rest.replaced (v := vs) rfl three
                  rw [operands]
                  refine .typed read (fun ts member => ?_) last
                  simp only [List.mem_cons, reduceCtorEq, false_or] at member
                  exact only ts member

theorem takesAll {operands : List Item} (named : b.Named names) (trio : Trio names σ operands) :
    ∃ c, TakesAll σ b c ∧ c.operands = operands := by
  cases trio with
  | guessed vs =>
      have room : b.uncovered = some [names] := by
        simp [uncovered, named.valuesRead, named.operands]
      exact ⟨_, .step (.values room) .done, by simp [putValues, named.typed]⟩
  | twice read read' =>
      exact ⟨_, .step (.type read) (.step (.type read') .done), by rw [named.operands]⟩
  | @typed us vs text σ read only last =>
      cases σ with
      | nil => cases last
      | cons s σ =>
          cases s with
          | type ts => exact absurd List.mem_cons_self (only ts)
          | values ws =>
              let m : Builder := { b with operands := .name text :: b.operands, typed := true }
              let p : Builder := m.putValues ws [.name text, names]
              have room : m.uncovered = some [.name text, names] := by
                simp [m, uncovered, named.valuesRead, named.operands]
              have put : p.operands = [items ws, .name text, names] := rfl
              obtain ⟨c, rest, same⟩ := TakesAll.replacing
                (fun ts member => only ts (List.mem_cons_of_mem _ member))
                (show p.typed = true from rfl) rfl put
              obtain ⟨-, us, stays, operands⟩ := rest.replaced put same
              cases stays.symm.trans last
              exact ⟨c, .step (.type read) (.step (.values room) rest), operands⟩

end Builder.Named

/-- Lines are held back for all values where there are as many names. -/
theorem assignFrom_done (keyword op : String) {names : Item} (type : Item) {values : List Item}
    {i : Nat} (fits : i + values.length ≤ names.units.length) (b : Builder) :
    ∃ c, b.perform (assignFrom keyword op names type values i) = (.ok (), c) := by
  induction values generalizing i b with
  | nil => exact ⟨b, rfl⟩
  | cons value values ih =>
      rw [List.length_cons] at fits
      have found : names.unit i = .ok names.units[i] := by
        rw [Item.unit, List.getElem?_eq_getElem (by omega)]
      rw [assignFrom, perform_bind_ok (by rw [found]; exact perform_lift b _),
        perform_bind_ok (perform_modify b _)]
      exact ih (by omega) _

/-- The builder after a declaration that leaves operands behind and writes lines. -/
def Builder.afterDeclaration (b : Builder) (rest : List Item) (lines : List String) : Builder :=
  { b with
    operands := rest
    held := b.held ++ String.join lines
    phase := .none
    typed := false
    namesRead := false
    valuesRead := false }

theorem leaveDeclaration_done {keyword : String} {b c : Builder}
    (done : b.perform (leaveDeclaration keyword) = (.ok (), c)) :
    ∃ values type names rest, b.operands = values :: type :: names :: rest ∧
      values.units.length ≤ names.units.length ∧
      c = b.afterDeclaration rest (Turn.linesOf keyword "=" names type values) := by
  obtain ⟨_, d, assigned, cleared⟩ := of_perform_bind done
  obtain ⟨values, type, names, rest, operands, fits, rfl⟩ := assign_done assigned
  cases cleared
  exact ⟨values, type, names, rest, operands, fits, rfl⟩

theorem perform_leaveDeclaration (keyword : String) {b : Builder} {values type names : Item}
    {rest : List Item} (operands : b.operands = values :: type :: names :: rest)
    (fits : values.units.length ≤ names.units.length) :
    b.perform (leaveDeclaration keyword) =
      (.ok (), b.afterDeclaration rest (Turn.linesOf keyword "=" names type values)) := by
  have popped := perform_popOperand b
  rw [operands] at popped
  rw [← Nat.zero_add values.units.length] at fits
  obtain ⟨c, assigned⟩ := assignFrom_done keyword "=" type fits { b with operands := rest }
  rw [leaveDeclaration, assign, bind_assoc, perform_bind_ok popped, bind_assoc,
    perform_bind_ok (perform_popOperand _), bind_assoc, perform_bind_ok (perform_popOperand _),
    bind_assoc, perform_bind_ok assigned, (assignFrom_held assigned).2]
  rfl

theorem passes_leave_hook {h : Head} {k : Hook} (hook : Hook.onLeave? h.category = some k)
    {us : List Tree} {es : List Event} {b c : Builder} :
    Passes (.leave h us :: es) b c ↔ ∃ m, b.perform (k.run us) = (.ok (), m) ∧ Passes es m c := by
  rw [Passes, heed_leave hook]
  constructor
  · intro done
    obtain ⟨_, m, ran, rest⟩ := of_perform_bind done
    exact ⟨m, ran, rest⟩
  · rintro ⟨m, ran, rest⟩
    rw [perform_bind_ok ran]
    exact rest

namespace Category

theorem onEnter_free (c : Category) (free : c ∉ holders) : Hook.onEnter? c = none := by
  revert free
  cases c <;> decide

theorem onLeave_free (c : Category) (free : c ∉ holders) :
    c = .identifierList ∨ c = .type ∨ c = .expressionList ∨ Hook.onLeave? c = none := by
  revert free
  cases c <;> decide

end Category

theorem passes_leave_signal {h : Head} {s : Signal} (category : h.category = s.category)
    {es : List Event} {b c : Builder} (declaring : b.Declaring) :
    Passes (.leave h s.parts :: es) b c ↔ ∃ m, Takes s b m ∧ Passes es m c := by
  have hook : Hook.onLeave? h.category = some s.hook := by cases s <;> rw [category] <;> rfl
  rw [passes_leave_hook hook]
  refine exists_congr fun m => and_congr_left fun _ => ?_
  constructor
  · intro ran
    cases s with
    | type us =>
        rw [Signal.hook, Hook.run, Signal.parts, declaring.perform_leaveType] at ran
        split at ran <;> cases ran
        exact .type ‹_›
    | values us =>
        rw [Signal.hook, Hook.run, Signal.parts, declaring.perform_leaveValues] at ran
        split at ran <;> cases ran
        exact .values ‹_›
  · intro takes
    cases takes with
    | @type us _ _ read => exact (declaring.perform_leaveType us).trans (by rw [read])
    | @values us _ _ room => exact (declaring.perform_leaveValues us).trans (by rw [room])

/-- Once its names are read, a declaration in which no statement stands is read signal by signal. -/
theorem passes_iff_takesAll {es : List Event}
    (free : ∀ e ∈ es, ∀ c, e.category? = some c → c ∉ Category.holders) {b c : Builder}
    (declaring : b.Declaring) (named : b.namesRead = true) :
    Passes es b c ↔ TakesAll (es.filterMap Event.signal?) b c := by
  induction es generalizing b with
  | nil =>
      constructor
      · rintro ⟨⟩
        exact .done
      · rintro ⟨⟩
        rfl
  | cons e es ih =>
      have here := free e List.mem_cons_self
      have rest {b : Builder} := @ih (fun d hd => free d (List.mem_cons_of_mem e hd)) b
      cases told : e.signal? with
      | some s =>
          obtain ⟨h, rfl, category⟩ := Event.signal?_eq_some.mp told
          rw [List.filterMap_cons_some told, passes_leave_signal category declaring]
          constructor
          · rintro ⟨m, takes, passes⟩
            exact .step takes
              ((rest (takes.declaring declaring) (takes.namesRead.trans named)).mp passes)
          · rintro (_ | ⟨takes, takesAll⟩)
            exact ⟨_, takes,
              (rest (takes.declaring declaring) (takes.namesRead.trans named)).mpr takesAll⟩
      | none =>
          rw [List.filterMap_cons_none told, ← rest declaring named]
          cases e with
          | leaf l => exact Iff.rfl
          | enter h us => exact passes_enter (h.category.onEnter_free (here _ rfl))
          | leave h us =>
              have other {s : Signal} (parts : s.parts = us) : h.category ≠ s.category :=
                fun same =>
                  nomatch told.symm.trans (Event.signal?_eq_some.mpr ⟨h, by rw [parts], same⟩)
              rcases h.category.onLeave_free (here _ rfl) with names | type | values | hook
              · -- names are read only once
                rw [passes_leave_hook (k := .leaveNames) (by rw [names]; rfl), Hook.run,
                  declaring.perform_leaveNames, named, if_pos rfl]
                constructor
                · rintro ⟨m, ⟨⟩, passes⟩
                  exact passes
                · exact fun passes => ⟨b, rfl, passes⟩
              · exact absurd type (@other (.type us) rfl)
              · exact absurd values (@other (.values us) rfl)
              · exact passes_leave hook

/-- The declarations that are read, with the word they begin with and the phase in which they are
read. -/
inductive Introduces : String → Category → Phase → Prop
  | const : Introduces "const" .constSpec .constDecl
  | var : Introduces "var" .varDecl .varDecl

/-- The trees begin with the names, and tell the signals after them. -/
def Begins (us ns : List Tree) (σ : List Signal) : Prop :=
  ∃ before k after, Tree.walkAll us = before ++ .leave k ns :: after ∧
    (∀ e ∈ before, Hook.ofEvent? e = none) ∧
    k.category = .identifierList ∧ after.filterMap Event.signal? = σ

/-- Walking through the tree holds the lines back and leaves no trace else of the declaration. -/
def Written (b : Builder) (t : Tree) (lines : List String) : Prop :=
  ∃ c, Passes t.walk b c ∧ c.held = b.held ++ String.join lines ∧ c.Idle

theorem heed_quiet {es : List Event} (quiet : ∀ e ∈ es, Hook.ofEvent? e = none) (fs : List Event) :
    heed (es ++ fs) = heed fs := by
  induction es with
  | nil => rfl
  | cons e es ih =>
      rw [List.cons_append, heed, quiet e List.mem_cons_self]
      exact ih fun d hd => quiet d (List.mem_cons_of_mem e hd)

section

variable {keyword : String} {h : Head} {p : Phase} {us ns : List Tree} {σ : List Signal}
  {b : Builder}

theorem Introduces.heed_enter (introduces : Introduces keyword h.category p) (es : List Event) :
    heed (.enter h us :: es) = (do setPhase p; heed es) := by
  generalize category : h.category = c at introduces
  cases introduces <;> rw [GoFlow.heed_enter (by rw [category]; rfl)] <;> rfl

theorem Introduces.heed_leave (introduces : Introduces keyword h.category p) :
    heed [.leave h us] = leaveDeclaration keyword := by
  generalize category : h.category = c at introduces
  cases introduces <;> rw [GoFlow.heed_leave (by rw [category]; rfl), heed, bind_pure_unit] <;> rfl

/-- A declaration in which nothing is read cannot be written. -/
theorem Introduces.not_written_quiet (introduces : Introduces keyword h.category p)
    (quiet : ∀ e ∈ Tree.walkAll us, Hook.ofEvent? e = none) (idle : b.Idle) (lines : List String) :
    ¬ Written b (.node h us) lines := by
  rintro ⟨d, passes, -⟩
  rw [Passes, Tree.walk, introduces.heed_enter, setPhase, perform_bind_ok (perform_modify b _),
    heed_quiet quiet, introduces.heed_leave] at passes
  obtain ⟨_, _, _, _, operands, -⟩ := leaveDeclaration_done passes
  cases idle.operands.symm.trans operands

def Builder.naming (b : Builder) (p : Phase) (ns : List Tree) : Builder :=
  { b with phase := p, namesRead := true, operands := items ns :: b.operands }

theorem Builder.Idle.naming (idle : b.Idle) (introduces : Introduces keyword h.category p) :
    (b.naming p ns).Named (items ns) where
  declaring := by
    generalize h.category = c at introduces
    cases introduces
    · exact .inl rfl
    · exact .inr rfl
  operands := by rw [Builder.naming, idle.operands]
  typed := idle.typed
  namesRead := rfl
  valuesRead := idle.valuesRead

variable (introduces : Introduces keyword h.category p)
  (free : ∀ e ∈ Tree.walkAll us, ∀ c, e.category? = some c → c ∉ Category.holders)
  (begins : Begins us ns σ) (idle : b.Idle)

include introduces free begins idle

theorem passes_declaration {d : Builder} :
    Passes (Tree.node h us).walk b d ↔
      ∃ c, TakesAll σ (b.naming p ns) c ∧ c.perform (leaveDeclaration keyword) = (.ok (), d) := by
  obtain ⟨before, k, after, split, quiet, names, rfl⟩ := begins
  have named : (b.naming p ns).Named (items ns) := idle.naming introduces
  have takesAll (c : Builder) :
      Passes after (b.naming p ns) c ↔
        TakesAll (after.filterMap Event.signal?) (b.naming p ns) c := by
    refine passes_iff_takesAll (fun e he => free e ?_) named.declaring rfl
    rw [split]
    exact List.mem_append_right _ (List.mem_cons_of_mem _ he)
  have opened : b.perform (heed (Tree.node h us).walk) =
      (b.naming p ns).perform (heed (after ++ [.leave h us])) := by
    rw [Tree.walk, introduces.heed_enter, setPhase, perform_bind_ok (perform_modify b _), split,
      List.append_assoc, heed_quiet quiet,
      List.cons_append, heed_leave (k := .leaveNames) (by rw [names]; rfl), Hook.run]
    have declaring : Builder.Declaring { b with phase := p } := named.declaring
    have unread : b.namesRead = false := idle.namesRead
    rw [perform_bind_ok (declaring.perform_leaveNames ns), unread]
    rfl
  rw [Passes, opened, ← Passes, passes_append]
  refine exists_congr fun c => ?_
  rw [takesAll, Passes, introduces.heed_leave]

/-- What is written comes of one of the ways to three operands, where there are names for all
values. -/
theorem written_iff {lines : List String} :
    Written b (.node h us) lines ↔
      ∃ values type, Trio (items ns) σ [values, type, items ns] ∧
        values.units.length ≤ (items ns).units.length ∧
        String.join (Turn.linesOf keyword "=" (items ns) type values) = String.join lines := by
  constructor
  · rintro ⟨d, passes, held, clean⟩
    obtain ⟨c, takesAll, left⟩ := (passes_declaration introduces free begins idle).mp passes
    obtain ⟨values, type, names, rest, operands, fits, rfl⟩ := leaveDeclaration_done left
    obtain rfl : rest = [] := clean.operands
    have trio := (idle.naming introduces).trio takesAll (by rw [operands]; rfl)
    rw [operands] at trio
    obtain rfl : names = items ns := by cases trio <;> rfl
    have same : c.held = b.held := takesAll.held
    rw [Builder.afterDeclaration, same] at held
    exact ⟨values, type, trio, fits, (String.append_right_inj _).mp held⟩
  · rintro ⟨values, type, trio, fits, same⟩
    obtain ⟨c, takesAll, operands⟩ := (idle.naming introduces).takesAll trio
    have left := perform_leaveDeclaration keyword operands fits
    refine ⟨_, (passes_declaration introduces free begins idle).mpr ⟨c, takesAll, left⟩, ?_,
      rfl, rfl, rfl, rfl, rfl⟩
    rw [Builder.afterDeclaration, takesAll.held, same]
    rfl

end

end GoFlow
