import GoFlow.Proofs.Source
import GoFlow.Tree.Parts

/-! Trees without errors: the children of every node are spelled by a phrase of its category. -/

namespace GoFlow

namespace Phrase

mutual

/-- The trees stand, in order, for what the phrase asks for. Nothing was skipped or taken as
read. -/
def Spells : Phrase → List Tree → Prop
  | token _ k, ts => ∃ t, ts = [.leaf (.token t)] ∧ t.kind = k
  | oneOf _ ks, ts => ∃ t, ts = [.leaf (.token t)] ∧ t.kind ∈ ks
  | part _ c _, ts => ∃ h us, ts = [.node h us] ∧ h.category = c
  | bracketAhead, ts => ts = []
  | seq ps, ts => SpellsAll ps ts
  | choice ps, ts => SpellsAny ps ts
  | maybe ps, ts => ts = [] ∨ SpellsAny ps ts
  | many p, ts => ∃ rounds : List (List Tree), ts = rounds.flatten ∧ ∀ us ∈ rounds, p.Spells us
  | oneOrMore p, ts => ∃ rounds : List (List Tree), rounds ≠ [] ∧ ts = rounds.flatten ∧
      ∀ us ∈ rounds, p.Spells us

def SpellsAll : List Phrase → List Tree → Prop
  | [], ts => ts = []
  | p :: ps, ts => ∃ us vs, ts = us ++ vs ∧ p.Spells us ∧ SpellsAll ps vs

def SpellsAny : List Phrase → List Tree → Prop
  | [], _ => False
  | p :: ps, ts => p.Spells ts ∨ SpellsAny ps ts

end

end Phrase

/-- The trees may stand below a node of the category. Of a category grown by suffixes, what was read
before the suffix stands first. -/
def Category.Spells (c : Category) (ts : List Tree) : Prop :=
  match c.production with
  | .plain ps => Phrase.SpellsAny ps ts
  | .grown bases suffixes => Phrase.SpellsAny bases ts ∨
      ∃ t us, ts = t :: us ∧ t.isOf c = true ∧ Phrase.SpellsAny (suffixes.map Prod.snd) us

namespace Tree

/-- No category in the tree was given up, and each is spelled as the grammar has it. -/
def Grammatical (t : Tree) : Prop :=
  ∀ h us, .enter h us ∈ t.walk → h.fault = none ∧ h.category.Spells us

theorem grammatical_leaf (l : Leaf) : (leaf l).Grammatical := by
  intro h us entered
  simp [walk] at entered

theorem grammatical_of {c : Category} {ts : List Tree} (spelled : c.Spells ts)
    (each : ∀ t ∈ ts, t.Grammatical) : (of c ts).Grammatical := by
  intro h us entered
  rcases List.mem_cons.mp entered with same | below
  · cases same
    exact ⟨rfl, spelled⟩
  · rcases List.mem_append.mp below with within | left
    · obtain ⟨t, member, inside⟩ := mem_walkAll.mp within
      exact each t member h us inside
    · cases List.mem_singleton.mp left

theorem grammatical_single {c : Category} {t : Tree} (spelled : c.Spells [t])
    (below : t.Grammatical) : (of c [t]).Grammatical :=
  grammatical_of spelled (List.forall_mem_singleton.mpr below)

def sign (k : Kind) (text : String) : Tree := .leaf (.token ⟨k, text, 0, 0, .start, false⟩)

theorem grammatical_sign (k : Kind) (text : String) : (sign k text).Grammatical :=
  grammatical_leaf _

def nameExpr (text : String) : Tree :=
  of .expression [of .primaryExpr [of .operand [of .operandName [word text]]]]

theorem grammatical_nameExpr (text : String) : (nameExpr text).Grammatical := by
  have name : (of .operandName [word text]).Grammatical :=
    grammatical_single (.inl ⟨_, rfl, rfl⟩) (grammatical_leaf _)
  have operand : (of .operand [of .operandName [word text]]).Grammatical :=
    grammatical_single
      (.inr (.inl ⟨[_], [], rfl, ⟨_, _, rfl, rfl⟩, [], [], rfl, .inl rfl, rfl⟩)) name
  have primary : (of .primaryExpr [of .operand [of .operandName [word text]]]).Grammatical :=
    grammatical_single (.inl (.inl ⟨_, _, rfl, rfl⟩)) operand
  exact grammatical_single (.inl (.inl ⟨_, _, rfl, rfl⟩)) primary

end Tree

def PartName.among (p : PartName) (ts : List Tree) : Bool := ts.any p.isOf

/-- The six forms of an if statement: the number of its children, whether a terminator stands before
the condition, and whether there is an else. -/
theorem ifStmt_forms {us : List Tree} (spelled : Category.ifStmt.Spells us) :
    (us.length, PartName.among (.category .eos) us, PartName.among (.kind .kwElse) us) ∈
      [(3, false, false), (5, false, true), (4, true, false), (6, true, true), (5, true, false),
      (7, true, true)] := by
  simp only [Category.Spells, Category.production, Phrase.SpellsAny, Phrase.Spells,
    Phrase.SpellsAll, Phrase.tok, Phrase.cat, or_false] at spelled
  obtain ⟨_, _, rfl, ⟨keyword, rfl, isIf⟩, header, _, rfl, headed, _, _, rfl,
    ⟨block, body, rfl, isBlock⟩, rest, _, rfl, otherwise, rfl⟩ := spelled
  have before :
    (header.length, PartName.among (.category .eos) header, PartName.among (.kind .kwElse) header) ∈
      [(1, false, false), (2, true, false), (3, true, false)] := by
    rcases headed with ⟨c, _, rfl, condition⟩ |
      ⟨_, _, rfl, ⟨e, _, rfl, mark⟩, _, _, rfl, ⟨c, _, rfl, condition⟩, rfl⟩ |
      ⟨_, _, rfl, ⟨s, _, rfl, first⟩, _, _, rfl, ⟨e, _, rfl, mark⟩, _, _, rfl,
      ⟨c, _, rfl, condition⟩, rfl⟩
    · simp [PartName.among, PartName.isOf, condition]
    · simp [PartName.among, PartName.isOf, condition, mark]
    · simp [PartName.among, PartName.isOf, condition, mark, first]
  have after :
    (rest.length, PartName.among (.category .eos) rest, PartName.among (.kind .kwElse) rest) ∈
      [(0, false, false), (2, false, true)] := by
    rcases otherwise with rfl |
      ⟨_, _, rfl, ⟨e, rfl, isElse⟩, _, _, rfl, ⟨o, _, rfl, second⟩ | ⟨o, _, rfl, second⟩, rfl⟩
    · simp [PartName.among]
    · simp [PartName.among, PartName.isOf, Leaf.kind, isElse, second]
    · simp [PartName.among, PartName.isOf, Leaf.kind, isElse, second]
  simp only [List.mem_cons, List.not_mem_nil, or_false, Prod.mk.injEq, PartName.among]
    at before after
  rcases before with ⟨n, mark, none⟩ | ⟨n, mark, none⟩ | ⟨n, mark, none⟩ <;>
    rcases after with ⟨k, free, other⟩ | ⟨k, free, other⟩ <;>
      simp [PartName.among, PartName.isOf, Leaf.kind, isIf, isBlock, n, mark, none, k, free, other]

end GoFlow
