import GoFlow.Proofs.Reading

/-! Declarations of constants and variables that are written as they stand. A declaration is read as
if it were one spec: its first names are taken, and each type and each list of values in it counts,
also within types and values. So a single spec with values comes out right if there is nothing
within it that misleads. Nothing else does, but for a type that has the name by which a type to be
guessed is known. -/

namespace GoFlow

open Move Builder

namespace Signal

/-- The text that is read of a type is not empty, and it does not begin with the sign that follows
it. -/
def Proper : Signal → Prop
  | type us => ∀ text ∈ (typeText us).toOption, text.toList.head? ∉ [none, some '=']
  | values _ => True

theorem Proper.text {us : List Tree} (proper : (type us).Proper) {text : String}
    (read : typeText us = .ok text) : text.toList.head? ∉ [none, some '='] := by
  rw [Proper, read] at proper
  exact proper text rfl

instance : DecidablePred Proper
  | type us => inferInstanceAs (Decidable (∀ text ∈ (typeText us).toOption, _))
  | values _ => inferInstanceAs (Decidable True)

/-- The first of the signals is a type that has the name of a type to be guessed, so that it is not
shown, and there is no other type. -/
def Unshown : List Signal → Prop
  | type us :: σ => typeText us = .ok "guess" ∧ ∀ s ∈ σ, s.category ≠ .type
  | _ => False

instance : DecidablePred Unshown
  | [] => inferInstanceAs (Decidable False)
  | values _ :: _ => inferInstanceAs (Decidable False)
  | type _ :: _ => inferInstanceAs (Decidable (_ ∧ _))

theorem type_not_mem_iff {σ : List Signal} :
    (∀ us, type us ∉ σ) ↔ ∀ s ∈ σ, s.category ≠ .type := by
  constructor
  · rintro only (us | us) member
    · exact absurd member (only us)
    · simp [category]
  · exact fun other us member => other _ member rfl

end Signal

/-- A spec of a declaration: names with a type, with values or with both. -/
inductive Spec where
  | typed (names type : Tree)
  | valued (names values : Tree)
  | both (names type values : Tree)

namespace Spec

def names : Spec → Tree
  | typed ns _ | valued ns _ | both ns _ _ => ns

def values? : Spec → Option Tree
  | typed _ _ => none
  | valued _ vs | both _ _ vs => some vs

def line (keyword type name value : String) : String :=
  keyword ++ " " ++ name ++ type ++ " = " ++ value ++ " \n"

def lines (keyword : String) : Spec → List String
  | typed _ _ => []
  | valued ns vs => List.zipWith (line keyword "") ns.itemTexts vs.itemTexts
  | both ns t vs => List.zipWith (line keyword (" " ++ t.text)) ns.itemTexts vs.itemTexts

/-- What the spec tells after its names: of the type and of the values, first what is within
them. -/
def told : Spec → List Signal
  | typed _ t => Tree.told t.children ++ [.type t.children]
  | valued _ vs => Tree.told vs.children ++ [.values vs.children]
  | both _ t vs => Tree.told t.children ++ .type t.children ::
      (Tree.told vs.children ++ [.values vs.children])

/-- There are names, which are words, each with a value if one has a value, and types have proper
texts. -/
structure Proper (s : Spec) : Prop where
  named : s.names.itemTexts ≠ []
  words : ∀ n ∈ s.names.itemTexts, ' ' ∉ n.toList
  matched : ∀ vs ∈ s.values?, vs.itemTexts.length = s.names.itemTexts.length
  types : ∀ x ∈ s.told, x.Proper

/-- The spec has values. Without a type there is no type and no list of values within them, or their
only type is not shown; with a type there is no type within them, and neither within the type, whose
text is read in full and shown. -/
def Legible : Spec → Prop
  | typed _ _ => False
  | valued _ vs =>
      ¬ Enters .type (Tree.walkAll vs.children) ∧
          ¬ Enters .expressionList (Tree.walkAll vs.children) ∨
        Signal.Unshown (Tree.told vs.children)
  | both _ t vs =>
      (typeText t.children = .ok t.text ∧ t.text ≠ "guess") ∧
        ¬ Enters .type (Tree.walkAll t.children) ∧
        ¬ Enters .expressionList (Tree.walkAll t.children) ∧
        ¬ Enters .type (Tree.walkAll vs.children)

instance : DecidablePred Legible
  | typed _ _ => inferInstanceAs (Decidable False)
  | valued _ _ => inferInstanceAs (Decidable (_ ∨ _))
  | both _ _ _ => inferInstanceAs (Decidable (_ ∧ _))

/-- The first of two specs has only a type, which is not shown, and the second gives values to the
first of the same names. -/
def Shared : List Spec → Prop
  | [typed ns t, valued ns' vs] =>
      typeText t.children = .ok "guess" ∧
        ¬ Enters .type (Tree.walkAll t.children) ∧
        ¬ Enters .expressionList (Tree.walkAll t.children) ∧
        ¬ Enters .type (Tree.walkAll vs.children) ∧ ns'.itemTexts <+: ns.itemTexts
  | _ => False

end Spec

/-- The trees are the parts of a spec. -/
inductive SpecParts : List Tree → Spec → Prop
  | typed {names type : Tree} (list : names.category? = some .identifierList)
      (ofType : type.category? = some .type) : SpecParts [names, type] (.typed names type)
  | valued {names values : Tree} {sign : Leaf} (list : names.category? = some .identifierList)
      (expressions : values.category? = some .expressionList) :
      SpecParts [names, .leaf sign, values] (.valued names values)
  | both {names type values : Tree} {sign : Leaf} (list : names.category? = some .identifierList)
      (ofType : type.category? = some .type)
      (expressions : values.category? = some .expressionList) :
      SpecParts [names, type, .leaf sign, values] (.both names type values)

/-- The trees are specs of variables, each with its end. -/
inductive VarSpecs : List Tree → List Spec → Prop
  | none : VarSpecs [] []
  | next {h : Head} {us ts : List Tree} {stop : Tree} {s : Spec} {ss : List Spec}
      (category : h.category = .varSpec)
      (parts : SpecParts us s) (ended : stop.category? = some .eos) (rest : VarSpecs ts ss) :
      VarSpecs (.node h us :: stop :: ts) (s :: ss)

/-- The tree declares constants with values, or variables: by one spec or by several in brackets. -/
inductive Declaration : String → Tree → List Spec → Prop
  | const {h : Head} {us : List Tree} {s : Spec} (category : h.category = .constSpec)
      (parts : SpecParts us s) (valued : s.values? ≠ none) : Declaration "const" (.node h us) [s]
  | var {h k : Head} {us : List Tree} {s : Spec} {keyword : Leaf} (category : h.category = .varDecl)
      (spec : k.category = .varSpec) (parts : SpecParts us s) :
      Declaration "var" (.node h [.leaf keyword, .node k us]) [s]
  | vars {h : Head} {us : List Tree} {ss : List Spec} {keyword opening closing : Leaf}
      (category : h.category = .varDecl) (specs : VarSpecs us ss) :
      Declaration "var" (.node h (.leaf keyword :: .leaf opening :: us ++ [.leaf closing])) ss

namespace Tree

variable {t : Tree} {ts us : List Tree}

theorem told_append : told (ts ++ us) = told ts ++ told us := by
  rw [told, walkAll_append, List.filterMap_append]
  rfl

theorem told_cons : told (t :: ts) = told [t] ++ told ts := @told_append [t] ts

theorem told_node (h : Head) :
    told [.node h us] = told us ++ (Event.leave h us).signal?.toList := by
  rw [told, walkAll, walk, walkAll, List.append_nil, List.filterMap_cons_none rfl,
    List.filterMap_append]
  cases told : (Event.leave h us).signal? with
  | none => rw [List.filterMap_cons_none told]; rfl
  | some s => rw [List.filterMap_cons_some told]; rfl

theorem told_self {s : Signal} (category : t.category? = some s.category)
    (parts : s.parts = t.children) : told [t] = told t.children ++ [s] := by
  cases t with
  | leaf l => cases category
  | node h us =>
      have told : (Event.leave h us).signal? = some s :=
        Event.signal?_eq_some.mpr ⟨h, by rw [parts]; rfl, Option.some.inj category⟩
      rw [told_node, told]
      rfl

theorem told_type (category : t.category? = some .type) :
    told [t] = told t.children ++ [.type t.children] :=
  told_self category rfl

theorem told_values (category : t.category? = some .expressionList) :
    told [t] = told t.children ++ [.values t.children] :=
  told_self category rfl

theorem mem_told {s : Signal} :
    s ∈ told ts ↔ ∃ h, .leave h s.parts ∈ walkAll ts ∧ h.category = s.category := by
  simp only [told, List.mem_filterMap, Event.signal?_eq_some]
  constructor
  · rintro ⟨_, member, h, rfl, category⟩
    exact ⟨h, member, category⟩
  · rintro ⟨h, member, category⟩
    exact ⟨_, member, h, rfl, category⟩

theorem type_mem_told : (∃ us, .type us ∈ told ts) ↔ Enters .type (walkAll ts) := by
  simp only [mem_told, enters_iff_leaves]
  exact exists_comm

theorem values_mem_told : (∃ us, .values us ∈ told ts) ↔ Enters .expressionList (walkAll ts) := by
  simp only [mem_told, enters_iff_leaves]
  exact exists_comm

theorem told_eq_nil :
    told ts = [] ↔ ¬ Enters .type (walkAll ts) ∧ ¬ Enters .expressionList (walkAll ts) := by
  rw [← type_mem_told, ← values_mem_told]
  constructor
  · intro nothing
    simp [nothing]
  · rintro ⟨noType, noValues⟩
    refine List.eq_nil_iff_forall_not_mem.mpr fun s member => ?_
    cases s with
    | type us => exact noType ⟨us, member⟩
    | values us => exact noValues ⟨us, member⟩

/-- Where the grammar allows no parts there are leaves only. -/
theorem Lawful.childless {c : Category} (lawful : t.Lawful) (category : t.category? = some c)
    (none : c.parts = []) : ∀ e ∈ walkAll t.children, ∃ l, e = .leaf l := by
  intro e he
  cases t with
  | leaf l => cases he
  | node h us =>
      cases category
      obtain ⟨u, hu, he⟩ := mem_walkAll.mp he
      cases u with
      | leaf l => exact ⟨l, by simpa [walk] using he⟩
      | node k vs =>
          have part := lawful.part hu k.category rfl
          rw [none] at part
          cases part

theorem Lawful.told_nil {c : Category} (lawful : t.Lawful) (category : t.category? = some c)
    (none : c.parts = []) (other : c ∉ [.type, .expressionList]) : told [t] = [] := by
  cases t with
  | leaf l => rfl
  | node h us =>
      have inner : told us = [] := by
        refine List.filterMap_eq_nil_iff.mpr fun e he => ?_
        obtain ⟨l, rfl⟩ := lawful.childless category none e he
        rfl
      cases category
      simp only [List.mem_cons, List.not_mem_nil, or_false, not_or] at other
      rw [told_node, inner, Event.signal?]
      split <;> simp_all

end Tree

theorem Begins.names {t : Tree} {us : List Tree} (lawful : t.Lawful)
    (category : t.category? = some .identifierList) :
    Begins (t :: us) t.children (Tree.told us) := by
  cases t with
  | leaf l => cases category
  | node h ns =>
      have list : h.category = .identifierList := Option.some.inj category
      refine ⟨.enter h ns :: Tree.walkAll ns, h,
        Tree.walkAll us, by simp [Tree.walkAll, Tree.walk, Tree.children],
        fun e he => ?_, list, rfl⟩
      rcases List.mem_cons.mp he with rfl | inside
      · rw [Hook.ofEvent?, list]
        rfl
      · obtain ⟨l, rfl⟩ := lawful.childless category rfl e inside
        rfl

theorem Begins.leaf {us ns : List Tree} {σ : List Signal} (begins : Begins us ns σ) (l : Leaf) :
    Begins (.leaf l :: us) ns σ := by
  obtain ⟨before, k, after, split, quiet, names, told⟩ := begins
  refine ⟨.leaf l :: before, k, after, by simp [Tree.walkAll, Tree.walk, split], fun e he => ?_,
    names, told⟩
  rcases List.mem_cons.mp he with rfl | inside
  · rfl
  · exact quiet e inside

theorem Begins.within {us ns ts : List Tree} {σ : List Signal} (begins : Begins us ns σ) {h : Head}
    (category : h.category = .varSpec) : Begins (.node h us :: ts) ns (σ ++ Tree.told ts) := by
  obtain ⟨before, k, after, split, quiet, names, rfl⟩ := begins
  refine ⟨.enter h us :: before, k, after ++ .leave h us :: Tree.walkAll ts, ?_, fun e he => ?_,
    names, ?_⟩
  · simp [Tree.walkAll, Tree.walk, split]
  · rcases List.mem_cons.mp he with rfl | inside
    · rw [Hook.ofEvent?, category]
      rfl
    · exact quiet e inside
  · rw [List.filterMap_append, List.filterMap_cons_none (by rw [Event.signal?, category])]
    rfl

namespace SpecParts

variable {us : List Tree} {s : Spec}

theorem split (parts : SpecParts us s) :
    ∃ rest, us = s.names :: rest ∧ s.names.category? = some .identifierList ∧
      Tree.told rest = s.told := by
  cases parts with
  | typed list ofType => exact ⟨_, rfl, list, Tree.told_type ofType⟩
  | valued list expressions => exact ⟨_, rfl, list, Tree.told_values expressions⟩
  | @both names type values sign list ofType expressions =>
      refine ⟨_, rfl, list, ?_⟩
      rw [Spec.told, Tree.told_cons, Tree.told_type ofType, ← Tree.told_values expressions,
        List.append_assoc]
      rfl

theorem told_eq (parts : SpecParts us s) (lawful : ∀ u ∈ us, u.Lawful) : Tree.told us = s.told := by
  obtain ⟨rest, rfl, list, told⟩ := parts.split
  rw [Tree.told_cons, (lawful _ List.mem_cons_self).told_nil list rfl (by decide),
    List.nil_append, told]

theorem begins (parts : SpecParts us s) (lawful : ∀ u ∈ us, u.Lawful) :
    Begins us s.names.children s.told := by
  obtain ⟨rest, rfl, list, told⟩ := parts.split
  rw [← told]
  exact .names (lawful _ List.mem_cons_self) list

end SpecParts

theorem VarSpecs.told_eq {us : List Tree} {ss : List Spec} (specs : VarSpecs us ss)
    (lawful : ∀ u ∈ us, u.Lawful) : Tree.told us = ss.flatMap Spec.told := by
  induction specs with
  | none => rfl
  | @next h us ts stop s ss category parts ended rest ih =>
      have inner : ∀ u ∈ us, u.Lawful := fun u hu => (lawful _ List.mem_cons_self).child hu
      have spec : Tree.told [.node h us] = s.told := by
        rw [Tree.told_node, Event.signal?, category, parts.told_eq inner]
        exact List.append_nil _
      rw [Tree.told_cons, spec, Tree.told_cons,
        (lawful stop (by simp)).told_nil ended rfl (by decide), List.nil_append,
        ih fun u hu => lawful u (by simp [hu]), List.flatMap_cons]

namespace Declaration

variable {keyword : String} {h : Head} {us : List Tree} {ss : List Spec}

theorem introduces (declares : Declaration keyword (.node h us) ss) :
    ∃ p, Introduces keyword h.category p := by
  cases declares with
  | const category _ _ => exact ⟨.constDecl, by rw [category]; exact .const⟩
  | var category _ _ => exact ⟨.varDecl, by rw [category]; exact .var⟩
  | vars category _ => exact ⟨.varDecl, by rw [category]; exact .var⟩

theorem free (declares : Declaration keyword (.node h us) ss) (lawful : (Tree.node h us).Lawful)
    (literals : ¬ Enters .functionLit (Tree.node h us).walk) :
    ∀ e ∈ Tree.walkAll us, ∀ c, e.category? = some c → c ∉ Category.holders := by
  intro e he c hc
  obtain ⟨u, hu, he⟩ := Tree.mem_walkAll.mp he
  have plain : u.Plain := by
    refine ⟨lawful.child hu, fun k vs entered literal => ?_, fun k hk => ?_⟩
    · exact literals ⟨k, vs, Tree.enter_mem_walk hu entered, literal⟩
    · have part := lawful.part hu k hk
      obtain ⟨p, introduces⟩ := declares.introduces
      generalize h.category = c at introduces part
      have outside : ∀ c ∈ [Category.constSpec, .varDecl], ∀ k ∈ c.parts, k ∉ Category.holders := by
        decide
      cases introduces
      · exact outside _ (by decide) k part
      · exact outside _ (by decide) k part
  exact plain.events he c hc

theorem begins {s : Spec} (declares : Declaration keyword (.node h us) (s :: ss))
    (lawful : (Tree.node h us).Lawful) :
    Begins us s.names.children (s.told ++ ss.flatMap Spec.told) := by
  cases declares with
  | const category parts _ =>
      rw [List.flatMap_nil, List.append_nil]
      exact parts.begins fun u hu => lawful.child hu
  | @var _ k us _ keyword category spec parts =>
      have inner : ∀ u ∈ us, u.Lawful := fun u hu =>
        (lawful.child (List.mem_cons_of_mem _ List.mem_cons_self)).child hu
      exact ((parts.begins inner).within spec).leaf keyword
  | @vars _ us _ keyword opening closing category specs =>
      cases specs with
      | @next k vs ts stop _ _ spec parts ended rest =>
          have each : ∀ u ∈ .node k vs :: stop :: ts, u.Lawful := fun u hu =>
            lawful.child
              (List.mem_append_left _ (List.mem_cons_of_mem _ (List.mem_cons_of_mem _ hu)))
          have inner : ∀ u ∈ vs, u.Lawful := fun u hu => (each _ List.mem_cons_self).child hu
          have others : Tree.told (stop :: ts ++ [.leaf closing]) = ss.flatMap Spec.told := by
            rw [Tree.told_append, Tree.told_cons,
              (each stop (by simp)).told_nil ended rfl (by decide), List.nil_append,
              rest.told_eq fun u hu => each u (by simp [hu])]
            exact List.append_nil _
          rw [← others]
          exact (((parts.begins inner).within spec).leaf opening).leaf keyword

end Declaration

/-! Texts of lines. The type is what tells one line from another with the same name and value. -/

namespace Spec

variable (keyword : String) {type type' : String} {names names' values values' : List String}

def text (keyword type : String) (names values : List String) : String :=
  String.join (List.zipWith (line keyword type) names values)

theorem length_line (type name value : String) :
    (line keyword type name value).length = keyword.length + name.length + type.length +
      value.length + 6 := by
  simp only [line, String.length_append]
  have : " ".length = 1 ∧ " = ".length = 3 ∧ " \n".length = 2 := by decide
  omega

theorem length_text_cons (type name value : String) (names values : List String) :
    (text keyword type (name :: names) (value :: values)).length =
      (line keyword type name value).length + (text keyword type names values).length := by
  rw [text, List.zipWith_cons_cons, String.join_cons, String.length_append]
  rfl

theorem length_text_le (names values : List String) (shorter : type.length ≤ type'.length) :
    (text keyword type names values).length ≤ (text keyword type' names values).length := by
  induction names generalizing values with
  | nil => exact Nat.le_refl _
  | cons name names ih =>
      cases values with
      | nil => exact Nat.le_refl _
      | cons value values =>
          have rest := ih values
          rw [length_text_cons, length_text_cons, length_line, length_line]
          omega

theorem length_text_lt (named : names ≠ []) (valued : values ≠ [])
    (shorter : type.length < type'.length) :
    (text keyword type names values).length < (text keyword type' names values).length := by
  obtain ⟨name, names, rfl⟩ := List.exists_cons_of_ne_nil named
  obtain ⟨value, values, rfl⟩ := List.exists_cons_of_ne_nil valued
  have rest := length_text_le keyword names values (Nat.le_of_lt shorter)
  rw [length_text_cons, length_text_cons, length_line, length_line]
  omega

theorem length_text_mixed_le (shorter : type.length ≤ type'.length)
    (matched : values'.length = names.length) (matched' : values.length = names'.length)
    (other : String) :
    (text keyword type names values).length ≤
      (text keyword type' names values').length + (text keyword other names' values).length := by
  induction values generalizing names names' values' with
  | nil => simp [text]
  | cons value values ih =>
      match names, values', names', matched, matched' with
      | [], _, _, _, _ => exact Nat.zero_le _
      | name :: names, value' :: values', name' :: names', matched, matched' =>
          have rest := ih (Nat.succ.inj matched) (Nat.succ.inj matched')
          simp only [length_text_cons, length_line]
          omega

theorem length_text_mixed_lt (shorter : type.length ≤ type'.length)
    (matched : values'.length = names.length) (matched' : values.length = names'.length)
    (named : names ≠ []) (named' : names' ≠ []) (other : String) :
    (text keyword type names values).length <
      (text keyword type' names values').length + (text keyword other names' values).length := by
  match names, values', names', values, matched, matched' with
  | name :: names, value' :: values', name' :: names', value :: values, matched, matched' =>
      have rest :=
        length_text_mixed_le keyword shorter (Nat.succ.inj matched) (Nat.succ.inj matched') other
      simp only [length_text_cons, length_line]
      omega

/-- What stands before the first blank is settled where names have none. -/
theorem cut_blank {xs ys as bs : List Char} (word : ' ' ∉ xs) (word' : ' ' ∉ ys)
    (same : xs ++ ' ' :: as = ys ++ ' ' :: bs) : xs = ys ∧ as = bs := by
  have before (zs cs : List Char) (word : ' ' ∉ zs) : (zs ++ ' ' :: cs).takeWhile
      (· != ' ') = zs := by
    have inside : ∀ z ∈ zs, (z != ' ') = true :=
      fun z hz => bne_iff_ne.mpr (by rintro rfl; exact word hz)
    rw [List.takeWhile_append_of_pos inside]
    simp
  obtain rfl : xs = ys := by rw [← before xs as word, same, before ys bs word']
  exact ⟨rfl, (List.cons.inj (List.append_cancel_left same)).2⟩

theorem text_concat (matched : names.length = values.length) (name value : String) :
    text keyword type (names ++ [name]) (values ++ [value]) =
      text keyword type names values ++ line keyword type name value := by
  rw [text, List.zipWith_append matched, String.join_append]
  simp [text]

/-- Lines with the same values are told apart from their end: names are words, so that the same text
has the same names in it. -/
theorem text_suffix {before : String} (matched : names.length = values.length)
    (matched' : names'.length = values.length) (words : ∀ n ∈ names, ' ' ∉ n.toList)
    (words' : ∀ n ∈ names', ' ' ∉ n.toList)
    (same : text keyword type names values = before ++ text keyword type names' values) :
    before = "" ∧ names = names' := by
  induction values using List.reverseRecOn generalizing names names' before with
  | nil =>
      cases List.eq_nil_of_length_eq_zero matched
      cases List.eq_nil_of_length_eq_zero matched'
      simpa [text, eq_comm] using same
  | append_singleton values value ih =>
      obtain ⟨names, name, rfl⟩ := List.eq_nil_or_concat' names |>.resolve_left (by
        rintro rfl
        simp at matched)
      obtain ⟨names', name', rfl⟩ := List.eq_nil_or_concat' names' |>.resolve_left (by
        rintro rfl
        simp at matched')
      simp only [List.length_append, List.length_singleton, Nat.add_right_cancel_iff]
        at matched matched'
      simp only [List.forall_mem_append, List.forall_mem_singleton] at words words'
      rw [text_concat keyword matched, text_concat keyword matched'] at same
      have chars : ((text keyword type names values ++ keyword).toList ++ ' ' :: name.toList) ++
            (type ++ " = " ++ value ++ " \n").toList =
          ((before ++ text keyword type names' values ++ keyword).toList ++ ' ' :: name'.toList) ++
            (type ++ " = " ++ value ++ " \n").toList := by
        simpa [line] using congrArg String.toList same
      have turned := congrArg List.reverse (List.append_cancel_right chars)
      simp only [List.reverse_append, List.reverse_cons, List.append_assoc, List.singleton_append]
        at turned
      obtain ⟨last, rest⟩ := cut_blank (by simpa using words.2) (by simpa using words'.2) turned
      have rest := String.toList_inj.mp (List.reverse_inj.mp rest)
      obtain ⟨empty, equal⟩ := ih matched matched' words.1 words'.1
        ((String.append_left_inj keyword).mp rest)
      rw [equal, String.toList_inj.mp (List.reverse_inj.mp last)]
      exact ⟨empty, rfl⟩

theorem text_take (fits : values.length ≤ names.length) :
    text keyword type (names.take values.length) values = text keyword type names values := by
  unfold text
  conv_rhs => rw [List.zipWith_eq_zipWith_take_min, Nat.min_eq_right fits, List.take_length]

/-- A line with a type is not one without, however they go on. -/
theorem line_typed_ne {name name' value value' more more' : String} (word : ' ' ∉ name.toList)
    (word' : ' ' ∉ name'.toList) (begins : type.toList.head? ∉ [none, some '=']) :
    line keyword (" " ++ type) name value ++ more ≠ line keyword "" name' value' ++ more' := by
  intro same
  have chars : name.toList ++ ' ' :: (type.toList ++ (" = " ++ value ++ " \n" ++ more).toList) =
      name'.toList ++ ' ' :: '=' :: (" " ++ value' ++ " \n" ++ more').toList := by
    simpa [line] using congrArg String.toList same
  obtain ⟨-, rest⟩ := cut_blank word word' chars
  cases shown : type.toList with
  | nil => simp [shown] at begins
  | cons c cs =>
      rw [shown] at rest begins
      obtain ⟨rfl, -⟩ := List.cons.inj rest
      simp at begins

theorem told_ne_nil (s : Spec) : s.told ≠ [] := by
  cases s <;> simp [told]

theorem flatMap_told_eq_nil {ss : List Spec} : ss.flatMap told = [] ↔ ss = [] := by
  cases ss with
  | nil => simp
  | cons s ss => simp [told_ne_nil]

theorem values_mem {s : Spec} {v : Tree} (valued : s.values? = some v) :
    .values v.children ∈ s.told := by
  cases s with
  | typed _ _ => cases valued
  | valued _ _ => cases valued; simp [told]
  | both _ _ _ => cases valued; simp [told]

/-- The last of the signals are values only if the last spec has values, and then they are these. -/
theorem last_values {ss : List Spec} {vs : List Tree}
    (last : (ss.flatMap told).getLast? = some (.values vs)) :
    ∃ before s v, ss = before ++ [s] ∧ s.values? = some v ∧ v.children = vs := by
  obtain ⟨before, s, rfl⟩ := List.eq_nil_or_concat' ss |>.resolve_left (by
    rintro rfl
    cases last)
  rw [List.flatMap_append, List.flatMap_singleton, List.getLast?_append] at last
  refine ⟨before, s, ?_⟩
  cases s with
  | typed _ t => simp [told] at last
  | valued _ v => exact ⟨v, rfl, rfl, by simpa [told] using last⟩
  | both _ t v => exact ⟨v, rfl, rfl, by simpa [told, List.getLast?_cons] using last⟩

theorem Proper.valued {s : Spec} (proper : s.Proper) {v : Tree} (valued : s.values? = some v) :
    v.itemTexts ≠ [] := by
  have matched := proper.matched v valued
  have named := proper.named
  rw [← List.length_pos_iff] at named ⊢
  omega

/-- The type as the lines of the spec show it. -/
def shown : Spec → String
  | both _ t _ => " " ++ t.text
  | _ => ""

theorem join_lines {s : Spec} {v : Tree} (valued : s.values? = some v) (keyword : String) :
    String.join (s.lines keyword) = text keyword s.shown s.names.itemTexts v.itemTexts := by
  cases s with
  | typed _ _ => cases valued
  | valued _ _ => cases valued; rfl
  | both _ _ _ => cases valued; rfl

theorem linesOf_items {keyword : String} (word : keyword ≠ "") (names values : Tree)
    (type : String) :
    Turn.linesOf keyword "=" (items names.children) (.name type) (items values.children) =
      List.zipWith (line keyword (if type = "guess" then "" else " " ++ type)) names.itemTexts
      values.itemTexts := by
  have worded : keyword.isEmpty = false := by simpa [String.isEmpty_iff] using word
  rw [Turn.linesOf, items, items, Item.units, Item.units, Tree.itemTexts, Tree.itemTexts]
  simp only [List.zipWith_map]
  congr 1
  funext n v
  by_cases guess : type = "guess" <;> simp [assignLine, worded, guess, line, Item.shown,
    String.append_assoc]

/-- The text of a type that is read is the beginning of the whole. -/
theorem typeText_begins {t : Tree} {text : String} (read : typeText t.children = .ok text) :
    ∃ rest, t.text = text ++ rest := by
  match t with
  | .leaf _ | .node _ [] | .node _ (.leaf _ :: _) | .node _ (.node _ [] :: _) => cases read
  | .node _ (.node _ (u :: us) :: ts) =>
      cases read
      exact ⟨Tree.textAll us ++ Tree.textAll ts, by simp [Tree.text, Tree.textAll,
        String.append_assoc]⟩

theorem only_type {xs ys σ : List Signal} {us us' : List Tree}
    (split : xs ++ .type us' :: ys = .type us :: σ) (only : ∀ ts, .type ts ∉ σ) :
    xs = [] ∧ us' = us ∧ ys = σ := by
  cases xs with
  | nil =>
      cases split
      exact ⟨rfl, rfl, rfl⟩
  | cons x xs =>
      cases split
      exact absurd (List.mem_append_right xs List.mem_cons_self) (only us')

section

variable {keyword : String} {s : Spec} {ss : List Spec}

theorem legible_of_guessed {vs : List Tree} (signals : (s :: ss).flatMap told = [.values vs]) :
    ss = [] ∧ s.Legible := by
  rw [List.flatMap_cons, List.append_eq_singleton_iff] at signals
  rcases signals with ⟨nothing, -⟩ | ⟨one, others⟩
  · exact absurd nothing s.told_ne_nil
  · refine ⟨flatMap_told_eq_nil.mp others, ?_⟩
    cases s with
    | typed _ t => simp [told, List.append_eq_singleton_iff] at one
    | valued _ v =>
        rw [told, List.append_eq_singleton_iff] at one
        rcases one with ⟨within, -⟩ | ⟨-, ⟨⟩⟩
        exact .inl (Tree.told_eq_nil.mp within)
    | both _ t v => simp [told, List.append_eq_singleton_iff] at one

theorem text_cons (keyword type : String) {names values : List String} (named : names ≠ [])
    (valued : values ≠ []) :
    ∃ name ∈ names, ∃ value more, text keyword type names values = line keyword type name value ++
      more := by
  obtain ⟨name, names, rfl⟩ := List.exists_cons_of_ne_nil named
  obtain ⟨value, values, rfl⟩ := List.exists_cons_of_ne_nil valued
  refine ⟨name, List.mem_cons_self, value, text keyword type names values, ?_⟩
  rw [text, List.zipWith_cons_cons, String.join_cons]
  rfl

theorem type_whole {t : Tree} {type : String} {names values : List String}
    (read : typeText t.children = .ok type) (named : names ≠ []) (filled : values ≠ [])
    (same : text keyword (" " ++ type) names values = text keyword (" " ++ t.text) names values) :
    t.text = type := by
  obtain ⟨rest, whole⟩ := typeText_begins read
  have short : ¬ (" " ++ type).length < (" " ++ t.text).length := fun longer =>
    Nat.lt_irrefl _ (same ▸ length_text_lt keyword named filled longer)
  rw [whole, String.length_append, String.length_append, String.length_append] at short
  have empty : rest = "" := String.length_eq_zero_iff.mp (by omega)
  rw [whole, empty, String.append_empty]

theorem length_join_le (keyword : String) {x : Spec} (member : x ∈ ss) :
    (String.join (x.lines keyword)).length ≤ (String.join (ss.flatMap (lines keyword))).length := by
  obtain ⟨before, after, rfl⟩ := List.append_of_mem member
  simp only [List.flatMap_append, List.flatMap_cons, String.join_append, String.length_append]
  omega

variable (proper : ∀ s' ∈ s :: ss, s'.Proper)

include proper

theorem type_read {us : List Tree} {type : String} (member : .type us ∈ (s :: ss).flatMap told)
    (read : typeText us = .ok type) : type.toList.head? ∉ [none, some '='] := by
  obtain ⟨x, hx, member⟩ := List.mem_flatMap.mp member
  exact ((proper x hx).types _ member).text read

/-- Two types alone are written, letter by letter, though no name has a value. -/
theorem not_twice {us us' : List Tree} {type type' : String}
    (signals : (s :: ss).flatMap told = [.type us, .type us']) (read' : typeText us' = .ok type') :
    String.join (Turn.linesOf keyword "=" (items s.names.children) (.name type) (.name type')) ≠
      String.join ((s :: ss).flatMap (lines keyword)) := by
  have nothing : (s :: ss).flatMap (lines keyword) = [] := by
    refine List.flatMap_eq_nil_iff.mpr fun x hx => ?_
    have without {v : Tree} (valued : x.values? = some v) : False := by
      have member := List.mem_flatMap.mpr ⟨x, hx, values_mem valued⟩
      simp [signals] at member
    cases x with
    | typed _ _ => rfl
    | valued _ _ => exact (without rfl).elim
    | both _ _ _ => exact (without rfl).elim
  have begins := type_read proper (by simp [signals]) read'
  obtain ⟨letter, letters, spelled⟩ : ∃ c cs, type'.toList = c :: cs :=
    List.exists_cons_of_ne_nil fun empty => begins (by simp [empty])
  obtain ⟨name, names, named⟩ := List.exists_cons_of_ne_nil (proper s List.mem_cons_self).named
  have units : (items s.names.children).units = (name :: names).map .name := by
    rw [← named, items, Item.units, Tree.itemTexts, List.map_map]
    rfl
  rw [nothing, Turn.linesOf, units, Item.units, spelled, List.map_cons, List.map_cons,
    List.zipWith_cons_cons, String.join_cons]
  -- every line ends with a line break, so that no text with a line is empty
  unfold assignLine
  split
  · simp
  · split <;> simp

theorem typed_ne {ns vs : Tree} (member : valued ns vs ∈ s :: ss) {type : String}
    {values : List String} (filled : values ≠ []) (begins : type.toList.head? ∉ [none, some '='])
    (more : String) :
    text keyword (" " ++ type) s.names.itemTexts values ≠ String.join
      ((valued ns vs).lines keyword) ++ more := by
  have first := proper s List.mem_cons_self
  have other := proper _ member
  obtain ⟨name, hn, value, rest, shown⟩ := text_cons keyword (" " ++ type) first.named filled
  obtain ⟨name', hn', value', rest', shown'⟩ := text_cons keyword "" other.named (other.valued rfl)
  have lines : String.join ((valued ns vs).lines keyword) = line keyword "" name' value' ++ rest' :=
    shown'
  rw [shown, lines, String.append_assoc]
  exact line_typed_ne keyword (first.words name hn) (other.words name' hn') begins

/-- The first names with the values of a later spec are not all that is declared. -/
theorem mixed_ne {w v : Tree} {x : Spec} {type : String} (own : s.values? = some w) (later : x ∈ ss)
    (valued : x.values? = some v) (shorter : type.length ≤ s.shown.length) :
    text keyword type s.names.itemTexts v.itemTexts ≠
      String.join (s.lines keyword) ++ String.join (ss.flatMap (lines keyword)) := by
  have first := proper s List.mem_cons_self
  have other := proper x (List.mem_cons_of_mem _ later)
  have fewer := length_text_mixed_lt keyword shorter (first.matched w own) (other.matched v valued)
    first.named other.named x.shown
  have among := length_join_le keyword later
  intro same
  have lengths := congrArg String.length same
  rw [String.length_append, join_lines own] at lengths
  rw [join_lines valued] at among
  exact absurd lengths (Nat.ne_of_lt (Nat.lt_of_lt_of_le fewer (Nat.add_le_add_left among _)))

theorem join_lines_ne {before : List Spec} (sub : before ⊆ s :: ss)
    (valued : ∀ x ∈ before, x.values? ≠ none)
    (empty : String.join (before.flatMap (lines keyword)) = "") : before = [] := by
  cases before with
  | nil => rfl
  | cons x before =>
      have proper := proper x (sub List.mem_cons_self)
      obtain ⟨v, hv⟩ := Option.ne_none_iff_exists'.mp (valued x List.mem_cons_self)
      obtain ⟨name, -, value, more, begun⟩ :=
        text_cons keyword x.shown proper.named (proper.valued hv)
      rw [List.flatMap_cons, String.join_append, join_lines hv, begun] at empty
      have length := congrArg String.length empty
      simp only [String.length_append, length_line, String.length_empty] at length
      omega

/-- Under a type that is shown, only a spec with this type comes out right. -/
theorem legible_of_shown {us : List Tree} {v : Tree} {type : String} {σ : List Signal}
    {before : List Spec} {x : Spec} (signals : (s :: ss).flatMap told = .type us :: σ)
    (read : typeText us = .ok type) (only : ∀ ts, .type ts ∉ σ) (split : s :: ss = before ++ [x])
    (valued : x.values? = some v) (unguessed : type ≠ "guess")
    (same : text keyword (" " ++ type) s.names.itemTexts v.itemTexts =
      String.join (s.lines keyword) ++ String.join (ss.flatMap (lines keyword))) :
    ss = [] ∧ s.Legible := by
  have member : x ∈ s :: ss := by simp [split]
  have filled := (proper x member).valued valued
  have begins := type_read proper (by rw [signals]; exact List.mem_cons_self) read
  rw [List.flatMap_cons] at signals
  cases s with
  | valued ns w => exact absurd same (typed_ne proper List.mem_cons_self filled begins _)
  | typed ns t =>
      simp only [told, List.append_assoc, List.cons_append, List.nil_append] at signals
      obtain ⟨-, rfl, rfl⟩ := only_type signals only
      cases ss with
      | nil =>
          cases List.mem_singleton.mp member
          cases valued
      | cons y ss =>
          -- the names and the type of this spec go with the values of another, which has no type
          have spec : ∃ ns' w, y = .valued ns' w := by
            cases y with
            | typed _ u => exact absurd (by simp [told]) (only u.children)
            | valued ns' w => exact ⟨ns', w, rfl⟩
            | both _ u _ => exact absurd (by simp [told]) (only u.children)
          obtain ⟨ns', w, rfl⟩ := spec
          rw [List.flatMap_cons, String.join_append] at same
          exact absurd same (typed_ne proper (by simp) filled begins _)
  | both ns t w =>
      simp only [told, List.append_assoc, List.cons_append, List.nil_append] at signals
      obtain ⟨within, rfl, rfl⟩ := only_type signals only
      cases ss with
      | nil =>
          cases List.mem_singleton.mp member
          cases valued
          rw [List.flatMap_nil, String.join_nil, String.append_empty] at same
          have whole := type_whole read (proper _ List.mem_cons_self).named filled same
          obtain ⟨noType, noList⟩ := Tree.told_eq_nil.mp within
          refine ⟨rfl, ⟨whole ▸ read, whole ▸ unguessed⟩, noType, noList, fun inside => ?_⟩
          obtain ⟨us, member⟩ := Tree.type_mem_told.mpr inside
          exact only us (List.mem_append_left _ member)
      | cons y ss =>
          -- the names of this spec go with the values of the last one, and all others are left out
          obtain ⟨rest, whole⟩ := typeText_begins read
          have shorter : (" " ++ type).length ≤ (both ns t w).shown.length := by
            rw [shown, whole, String.length_append, String.length_append, String.length_append]
            omega
          have last : x ∈ y :: ss := by
            have last := congrArg List.getLast? split
            rw [List.getLast?_concat, List.getLast?_cons_cons] at last
            exact List.mem_of_getLast? last
          exact absurd same (mixed_ne proper rfl last valued shorter)

omit proper in
/-- Where the only type is that of the first spec, which has no values, and it is not shown, the
values of a second spec go with its names, and there is no third one. -/
theorem shared_of_unshown {ns t v : Tree} {before : List Spec} {x : Spec}
    (proper : ∀ s' ∈ typed ns t :: (before ++ [x]), s'.Proper)
    (within : Tree.told t.children = []) (read : typeText t.children = .ok "guess")
    (only : ∀ ts, .type ts ∉ (before ++ [x]).flatMap told) (valued : x.values? = some v)
    (fits : v.itemTexts.length ≤ ns.itemTexts.length)
    (same : text keyword "" ns.itemTexts v.itemTexts =
      String.join ((before ++ [x]).flatMap (lines keyword))) :
    Shared (typed ns t :: (before ++ [x])) := by
  have untyped : ∀ y ∈ before ++ [x], ∃ ns' w, y = .valued ns' w := by
    intro y hy
    have absent (us : List Tree) (member : .type us ∈ y.told) : False :=
      only us (List.mem_flatMap.mpr ⟨y, hy, member⟩)
    cases y with
    | typed _ u => exact (absent u.children (by simp [told])).elim
    | valued ns' w => exact ⟨ns', w, rfl⟩
    | both _ u _ => exact (absent u.children (by simp [told])).elim
  obtain ⟨ns', w, rfl⟩ := untyped x (by simp)
  cases valued
  have words : ∀ n ∈ ns.itemTexts, ' ' ∉ n.toList := (proper _ List.mem_cons_self).words
  have other := proper (.valued ns' v) (by simp)
  have joined : String.join ((valued ns' v).lines keyword) =
      text keyword "" ns'.itemTexts v.itemTexts := rfl
  rw [List.flatMap_append, List.flatMap_singleton, String.join_append, joined,
    ← text_take keyword fits] at same
  obtain ⟨empty, names⟩ := text_suffix keyword (by rw [List.length_take, Nat.min_eq_left fits])
    (other.matched v rfl).symm (fun n hn => words n (List.mem_of_mem_take hn)) other.words same
  obtain rfl : before = [] := by
    refine join_lines_ne proper (fun y hy => by simp [hy]) (fun y hy => ?_) empty
    obtain ⟨_, _, rfl⟩ := untyped y (by simp [hy])
    simp [values?]
  obtain ⟨noType, noList⟩ := Tree.told_eq_nil.mp within
  refine ⟨read, noType, noList, fun inside => ?_, names ▸ List.take_prefix _ _⟩
  obtain ⟨us, member⟩ := Tree.type_mem_told.mpr inside
  exact only us (by simp [told, member])

/-- Under a type that is not shown, only specs without types come out right. -/
theorem legible_of_unshown {us : List Tree} {v : Tree} {σ : List Signal} {before : List Spec}
    {x : Spec} (signals : (s :: ss).flatMap told = .type us :: σ)
    (read : typeText us = .ok "guess") (only : ∀ ts, .type ts ∉ σ) (split : s :: ss = before ++ [x])
    (valued : x.values? = some v) (fits : v.itemTexts.length ≤ s.names.itemTexts.length)
    (same : text keyword "" s.names.itemTexts v.itemTexts =
      String.join (s.lines keyword) ++ String.join (ss.flatMap (lines keyword))) :
    ss = [] ∧ s.Legible ∨ Shared (s :: ss) := by
  have member : x ∈ s :: ss := by simp [split]
  have first := proper s List.mem_cons_self
  have filled := (proper x member).valued valued
  have last {y : Spec} {ys : List Spec} (others : ss = y :: ys) : x ∈ ss := by
    have last := congrArg List.getLast? split
    rw [others, List.getLast?_concat, List.getLast?_cons_cons, ← others] at last
    exact List.mem_of_getLast? last
  rw [List.flatMap_cons] at signals
  cases s with
  | valued ns w =>
      cases ss with
      | nil =>
          refine .inl ⟨rfl, .inr ?_⟩
          rw [told, List.flatMap_nil, List.append_nil] at signals
          cases within : Tree.told w.children with
          | nil => simp [within] at signals
          | cons signal τ =>
              rw [within] at signals
              cases signals
              exact ⟨read, Signal.type_not_mem_iff.mp fun ts member =>
                only ts (List.mem_append_left _ member)⟩
      | cons y ys => exact absurd same (mixed_ne proper rfl (last rfl) valued (Nat.zero_le _))
  | both ns t w =>
      cases ss with
      | nil =>
          cases List.mem_singleton.mp member
          cases valued
          rw [List.flatMap_nil, String.join_nil, String.append_empty] at same
          have longer : "".length < (" " ++ t.text).length := by
            rw [String.length_append]
            exact Nat.lt_add_right _ (by decide)
          exact absurd (congrArg String.length same)
            (Nat.ne_of_lt (length_text_lt keyword first.named filled longer))
      | cons y ys => exact absurd same (mixed_ne proper rfl (last rfl) valued (Nat.zero_le _))
  | typed ns t =>
      simp only [told, List.append_assoc, List.cons_append, List.nil_append] at signals
      obtain ⟨within, rfl, rfl⟩ := only_type signals only
      cases before with
      | nil =>
          cases split
          cases valued
      | cons s before =>
          obtain ⟨rfl, rfl⟩ := List.cons.inj split
          have nothing : String.join ((typed ns t).lines keyword) = "" := rfl
          rw [nothing, String.empty_append] at same
          exact .inr (shared_of_unshown proper within read only valued fits same)

end

/-- The specs come to three operands, from which their lines are made. -/
def Resolves (keyword : String) (s : Spec) (ss : List Spec) : Prop :=
  ∃ values type, Trio (items s.names.children) ((s :: ss).flatMap told)
      [values, type, items s.names.children] ∧
    values.units.length ≤ (items s.names.children).units.length ∧
    String.join (Turn.linesOf keyword "=" (items s.names.children) type values) =
      String.join ((s :: ss).flatMap (lines keyword))

theorem length_units_items (t : Tree) : (items t.children).units.length = t.itemTexts.length := by
  simp [items, Item.units, Tree.itemTexts]

section

variable {keyword : String} (word : keyword ≠ "") {s : Spec}

include word

theorem legible_of_resolves {ss : List Spec} (proper : ∀ s' ∈ s :: ss, s'.Proper)
    (resolves : Resolves keyword s ss) : ss = [] ∧ s.Legible ∨ Shared (s :: ss) := by
  obtain ⟨values, type, trio, fits, same⟩ := resolves
  generalize signals : (s :: ss).flatMap told = σ at trio
  cases trio with
  | guessed vs => exact .inl (legible_of_guessed signals)
  | twice _ read' => exact absurd same (not_twice proper signals read')
  | @typed us vs type σ read only last =>
      obtain ⟨before, x, v, split, valued, rfl⟩ := last_values (by
        rw [signals, List.getLast?_cons, last]
        rfl)
      rw [length_units_items, length_units_items] at fits
      rw [linesOf_items word, ← text, List.flatMap_cons, String.join_append] at same
      by_cases guess : type = "guess"
      · rw [if_pos guess] at same
        exact legible_of_unshown proper signals (guess ▸ read) only split valued fits same
      · rw [if_neg guess] at same
        exact .inl (legible_of_shown proper signals read only split valued guess same)

theorem Legible.resolves (proper : s.Proper) (legible : s.Legible) : Resolves keyword s [] := by
  simp only [Resolves, List.flatMap_singleton]
  cases s with
  | typed _ _ => exact legible.elim
  | valued ns vs =>
      refine ⟨items vs.children, .name "guess", ?_, ?_, ?_⟩
      · rw [told]
        rcases legible with plain | unshown
        · rw [Tree.told_eq_nil.mpr plain]
          exact .guessed vs.children
        · cases within : Tree.told vs.children with
          | nil => simp [within, Signal.Unshown] at unshown
          | cons signal τ =>
              rw [within] at unshown
              cases signal with
              | values us => exact unshown.elim
              | type us =>
                  refine .typed unshown.1 (fun ts member => ?_) List.getLast?_concat
                  rcases List.mem_append.mp member with inside | self
                  · exact Signal.type_not_mem_iff.mpr unshown.2 ts inside
                  · simp at self
      · rw [length_units_items, length_units_items]
        exact (proper.matched vs rfl).le
      · rw [linesOf_items word, if_pos rfl]
        rfl
  | both ns t vs =>
      obtain ⟨⟨read, unguessed⟩, noType, noList, plain⟩ := legible
      refine ⟨items vs.children, .name t.text, ?_, ?_, ?_⟩
      · rw [told, Tree.told_eq_nil.mpr ⟨noType, noList⟩]
        refine .typed read (fun ts member => ?_) (by simp)
        simp only [List.mem_append, List.mem_singleton, reduceCtorEq, or_false] at member
        exact plain (Tree.type_mem_told.mp ⟨ts, member⟩)
      · rw [length_units_items, length_units_items]
        exact (proper.matched vs rfl).le
      · rw [linesOf_items word, if_neg unguessed]
        rfl

theorem Shared.resolves {ss : List Spec} (proper : ∀ s' ∈ s :: ss, s'.Proper)
    (shared : Shared (s :: ss)) : Resolves keyword s ss := by
  unfold Shared at shared
  split at shared
  · rename_i ns t ns' vs specs
    cases specs
    obtain ⟨read, noType, noList, plain, names⟩ := shared
    have matched := (proper (.valued ns' vs) (by simp)).matched vs rfl
    have fits : vs.itemTexts.length ≤ ns.itemTexts.length := matched.le.trans names.length_le
    refine ⟨items vs.children, .name "guess", ?_, ?_, ?_⟩
    · simp only [List.flatMap_cons, List.flatMap_nil, told, List.append_nil,
        Tree.told_eq_nil.mpr ⟨noType, noList⟩, List.nil_append, List.cons_append]
      refine .typed read (fun ts member => ?_) List.getLast?_concat
      simp only [List.mem_append, List.mem_singleton, reduceCtorEq, or_false] at member
      exact plain (Tree.type_mem_told.mp ⟨ts, member⟩)
    · rwa [length_units_items, length_units_items]
    · have own : ns.itemTexts.take vs.itemTexts.length = ns'.itemTexts := by
        rw [show vs.itemTexts.length = ns'.itemTexts.length from matched]
        exact (List.prefix_iff_eq_take.mp names).symm
      rw [linesOf_items word, if_pos rfl, ← text,
        show (typed ns t).names.itemTexts = ns.itemTexts from rfl, ← text_take keyword fits, own]
      simp [lines, text]
  · exact shared.elim

end

end Spec

/-- A declaration of constants with values, or of variables, in which no function literal occurs is
written as it stands, and leaves nothing else behind, just if it is a single spec that is legible,
or two specs of which the second gives values to names whose type is not shown. -/
theorem written_iff_legible {keyword : String} {t : Tree} {specs : List Spec}
    (declares : Declaration keyword t specs) (lawful : t.Lawful)
    (literals : ¬ Enters .functionLit t.walk) (proper : ∀ s ∈ specs, s.Proper) {b : Builder}
    (idle : b.Idle) :
    Written b t (specs.flatMap (Spec.lines keyword)) ↔
      (∃ s, specs = [s] ∧ s.Legible) ∨ Spec.Shared specs := by
  have word : keyword ≠ "" := by cases declares <;> decide
  obtain ⟨h, us, rfl⟩ : ∃ h us, t = .node h us := by cases declares <;> exact ⟨_, _, rfl⟩
  obtain ⟨p, introduces⟩ := declares.introduces
  have free := declares.free lawful literals
  cases specs with
  | nil =>
      have quiet : ∀ e ∈ Tree.walkAll us, Hook.ofEvent? e = none := by
        obtain ⟨-, -, -⟩ | ⟨-, -, -⟩ | ⟨-, ⟨⟩⟩ := declares
        simp [Tree.walkAll, Tree.walk, Hook.ofEvent?]
      exact iff_of_false (introduces.not_written_quiet quiet idle _) (by simp [Spec.Shared])
  | cons s ss =>
      rw [written_iff introduces free (declares.begins lawful) idle]
      constructor
      · intro resolves
        refine (Spec.legible_of_resolves word proper resolves).imp_left ?_
        rintro ⟨rfl, legible⟩
        exact ⟨s, rfl, legible⟩
      · rintro (⟨_, ⟨⟩, legible⟩ | shared)
        · exact legible.resolves word (proper s List.mem_cons_self)
        · exact shared.resolves word proper

namespace Tree

def plainType (name : String) : Tree := of .type [of .typeName [word name]]

def sliceOf (element : Tree) : Tree :=
  of .type [of .typeLit [of .sliceType [word "[", word "]", of .elementType [element]]]]

def varOf (name : String) (type value : Tree) : Tree :=
  of .varDecl [word "var",
    of .varSpec [of .identifierList [word name], type, word "=", of .expressionList [value]]]

def call (name argument : String) : Tree :=
  of .expression [of .primaryExpr [of .primaryExpr [of .operand [word name]],
    of .arguments [word "(", of .expressionList [word argument], word ")"]]]

end Tree

def Spec.varOf (name : String) (type value : Tree) : Spec :=
  .both (.of .identifierList [.word name]) type (.of .expressionList [value])

/-- A list of arguments does no harm under a type; the type of the elements of a slice does, and so
does a type with the name of one to be guessed. -/
theorem slice_misread :
    Written (Builder.new .late) (.varOf "x" (.plainType "int") (.call "f" "y"))
        ["var x int = f(y) \n"] ∧
      ¬ Written (Builder.new .late) (.varOf "x" (.sliceOf (.plainType "int")) (.word "y"))
        ["var x []int = y \n"] ∧
      ¬ Written (Builder.new .late) (.varOf "x" (.plainType "guess") (.word "y"))
        ["var x guess = y \n"] := by
  have idle : (Builder.new .late).Idle := ⟨rfl, rfl, rfl, rfl, rfl⟩
  have declares (type value : Tree) (ofType : type.category? = some .type) :
      Declaration "var" (.varOf "x" type value) [.varOf "x" type value] :=
    .var rfl rfl (.both rfl ofType rfl)
  have proper (type value : Tree) (types : ∀ x ∈ (Spec.varOf "x" type value).told, x.Proper) :
      ∀ s ∈ [Spec.varOf "x" type value], s.Proper := by
    intro s member
    cases List.mem_singleton.mp member
    exact ⟨(by decide : ["x"] ≠ []), (by decide : ∀ n ∈ ["x"], ' ' ∉ n.toList),
      by rintro _ ⟨⟩; rfl, types⟩
  have misread {type value : Tree} (illegible : ¬ (Spec.varOf "x" type value).Legible) :
      ¬ ((∃ s, [Spec.varOf "x" type value] = [s] ∧ s.Legible) ∨
        Spec.Shared [Spec.varOf "x" type value]) := by
    rintro (⟨s, ⟨⟩, legible⟩ | shared)
    · exact illegible legible
    · exact shared
  refine ⟨?_, fun written => ?_, fun written => ?_⟩
  · exact (written_iff_legible (declares _ _ rfl) (by decide +kernel) (by decide +kernel)
      (proper _ _ (by decide +kernel)) idle).mpr (.inl ⟨_, rfl, by decide +kernel⟩)
  · exact misread (by decide +kernel) ((written_iff_legible (declares _ _ rfl) (by decide +kernel)
      (by decide +kernel) (proper _ _ (by decide +kernel)) idle).mp written)
  · exact misread (by decide +kernel) ((written_iff_legible (declares _ _ rfl) (by decide +kernel)
      (by decide +kernel) (proper _ _ (by decide +kernel)) idle).mp written)

end GoFlow
