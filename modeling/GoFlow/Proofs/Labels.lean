import GoFlow.Proofs.Changes
import GoFlow.Proofs.DotReading
import GoFlow.Proofs.Source

/-! Labels in the text of a graph. Everything that a builder of the late edition writes into a graph
is a name, but for the labels. A label is a header of the source or made of whole lines; neither
runs into what follows it, so that the text is read as the statements of the graph, word by word. -/

namespace GoFlow

open Dot Move Builder

/-- A text that can be a header. It does not end in a backslash or a line break, and is not put in
angle brackets. -/
structure Tame (s : String) : Prop where
  unslashed : s.toList.getLast? ≠ some '\\'
  unbroken : s.toList.getLast? ≠ some '\n'
  unbracketed : s.toList.head? = some '<' → s.toList.getLast? ≠ some '>'

theorem Tame.sealed {s : String} (tame : Tame s) : Sealed s where
  unbracketed := by
    rw [Bool.eq_false_iff]
    intro bracketed
    simp only [isBracketed, dropFinalBreak_eq tame.unbroken, Bool.or_self, Bool.and_eq_true,
      beq_iff_eq] at bracketed
    exact tame.unbracketed bracketed.1 bracketed.2.2
  unslashed := tame.unslashed
  unbroken := fun _ => tame.unbroken

theorem Tame.empty : Tame "" := ⟨by decide, by decide, by decide⟩

theorem Tame.loop {s : String} (tame : Tame s) : Tame ("for " ++ s) := by
  have ends {c : Char} (other : c ≠ ' ') (last : s.toList.getLast? ≠ some c) :
      ("for " ++ s).toList.getLast? ≠ some c := by
    rw [String.toList_append, List.getLast?_append]
    cases found : s.toList.getLast? with
    | none => simpa using other.symm
    | some d => simpa [found] using last
  refine ⟨ends (by decide) tame.unslashed, ends (by decide) tame.unbroken, fun head => ?_⟩
  simp at head

theorem Tame.finish (s : String) : Tame (s ++ " end") := by
  constructor <;> simp

theorem Lined.sealed {s : String} (lined : Lined s) : Sealed s := by
  obtain ⟨t, rfl⟩ := lined
  have split : (t ++ " \n").toList = t.toList ++ [' ', '\n'] := by simp
  have cut : dropFinalBreak (t.toList ++ [' ', '\n']) = t.toList ++ [' '] := by
    rw [dropFinalBreak, List.getLast?_append]
    simp
  -- Neither a name nor a numeral has a blank or a line break in it.
  have written (c : Char) (cs : List Char) (member : c ∈ cs)
      (avoided : (Pattern.alt namePattern numeralPattern).avoids c = true) :
      (Pattern.alt namePattern numeralPattern).accepts cs = false :=
    Bool.eq_false_iff.mpr fun accepted =>
      ((Pattern.accepts_iff _ _).mp accepted).not_mem avoided member
  refine ⟨?_, by simp, fun plain => ?_⟩
  · simp [isBracketed, split, cut]
  · rw [isPlain, split, cut, written '\n' _ (by simp) (by decide),
      written ' ' _ (by simp) (by decide)] at plain
    cases plain

/-! ## Names -/

theorem not_keyword_of_digit {s : String} {c : Char} (member : c ∈ s.toList)
    (digit : c.isDigit = true) : keywords.contains (s.map Char.toLower) = false := by
  rw [Bool.eq_false_iff]
  intro keyword
  have letters : ∀ k ∈ keywords, ∀ c ∈ k.toList, c.isDigit = false := by simp [keywords]
  have same : c.toLower = c :=
    of_isDecimalDigit (P := fun c => c.toLower = c) digit (by decide +kernel)
  have kept : c ∈ (s.map Char.toLower).toList := by
    rw [String.toList_map, List.mem_map]
    exact ⟨c, member, same⟩
  exact absurd digit (by simp [letters _ (List.contains_iff_mem.mp keyword) c kept])

/-- A name with a number behind it is a name, and no keyword. -/
theorem isName_append {kind : String} (named : namePattern.accepts kind.toList = true) (n : Nat) :
    isName (kind ++ toString n) = true := by
  have some : (toString n).toList ≠ [] := by
    rw [toList_toString]
    exact Nat.toDigits_ne_nil
  obtain ⟨digit, member⟩ := List.exists_mem_of_ne_nil _ some
  have within : digit ∈ (kind ++ toString n).toList := by
    rw [String.toList_append]
    exact List.mem_append_right _ member
  refine isName_iff.mpr ⟨?_, not_keyword_of_digit within (isDigit_of_mem_toString member)⟩
  obtain ⟨c, more, split, first, later⟩ := matches_name.mp ((Pattern.accepts_iff _ _).mp named)
  refine matches_name.mpr ⟨c, more ++ (toString n).toList, by rw [String.toList_append, split]; rfl,
    first, ?_⟩
  intro d member
  rcases List.mem_append.mp member with old | new
  · exact later d old
  · simp [isNameChar, Char.isAlphanum, isDigit_of_mem_toString new]

theorem NodeName.isName {s : String} (h : NodeName s) : Dot.isName s = true := by
  have letters : ∀ kind ∈ nodeKinds, namePattern.accepts kind.toList = true := by decide +kernel
  obtain ⟨kind, known, n, rfl⟩ := h
  exact isName_append (letters kind known) n

def EndName (s : String) : Prop :=
  ∀ direction, isName direction = true → IsEnd (ported s direction)

theorem EndName.of_isName {s : String} (named : isName s = true) : EndName s := by
  have absent : ':' ∉ s.toList :=
    fun member => absurd (ne_colon_of_isName named ':' member) (by decide)
  exact fun direction port => ⟨s, direction, named, port, by simp [ported, absent]⟩

theorem Item.Known.endName {nodes : List String} {x : Item} (known : x.Known nodes)
    (named : ∀ n ∈ nodes, NodeName n) {s : String} (hs : s ∈ x.names) : EndName s := by
  obtain ⟨n, member, rfl | ⟨p, side, rfl⟩⟩ := known.2 s hs
  · exact .of_isName (named _ member).isName
  · have sides : ∀ p ∈ ["e", "w"], isName p = true := by decide +kernel
    exact fun _ _ => ⟨n, p, (named n member).isName, sides p side, by simp [ported]⟩

theorem sound_link {s t : String} {attributes : List (String × String)} (tail : EndName s)
    (head : EndName t) (named : ∀ a ∈ attributes, isName a.1 = true ∧ isName a.2 = true) :
    (link s t attributes).Sound :=
  ⟨tail "s" (by decide +kernel), head "n" (by decide +kernel), named⟩

/-! ## Builders -/

namespace Builder

/-- What holds of a builder at every moment: the text it holds back is made of lines, and its graph
consists of sound statements. -/
structure Sound (b : Builder) : Prop where
  late : b.edition = .late
  held : b.held = "" ∨ Lined b.held
  graph : ∀ s ∈ b.graph, s.Sound

theorem Sound.new : (Builder.new .late).Sound := ⟨rfl, .inl rfl, by rintro s ⟨⟩⟩

variable {b c : Builder}

theorem Sound.sealed_nodeLabel (sound : b.Sound) {content : String} (text : Sealed content)
    (kind name : String) : Sealed (nodeLabel b.edition b.held content kind name) := by
  have held : Sealed b.held := by
    rcases sound.held with empty | lined
    · rw [empty]
      exact Tame.empty.sealed
    · exact lined.sealed
  simp only [nodeLabel, sound.late, reduceCtorEq, if_false]
  split
  · exact held
  · exact text

namespace Regular

variable (regular : b.Regular)

include regular

theorem endName {s : String} (offers : b.Offers s) : EndName s :=
  ((Item.Offered.name offers).known regular).endName regular.named (by simp [Item.names])

theorem inward_sound {e : Statement} (inward : b.Inward e) : e.Sound := by
  obtain ⟨s, t, attributes, first, node, -, known, rfl⟩ := inward
  have named : ∀ attributes ∈ inwardAttributes,
      ∀ a ∈ attributes, isName a.1 = true ∧ isName a.2 = true := by decide +kernel
  exact sound_link (regular.endName (.inr ⟨s, first, .inl rfl⟩))
    (.of_isName (regular.named t node).isName) (named attributes known)

theorem turns_sound (late : b.edition = .late) {count : Nat} {edges : List Statement}
    (turns : b.Turns count edges) : ∀ e ∈ edges, e.Sound := by
  have back {s loop : String} (tail : EndName s) (first : .name loop ∈ b.firsts) :
      (link s loop [("headport", "w"), ("tailport", "w")]).Sound :=
    sound_link tail (regular.endName (.inr ⟨loop, first, .inl rfl⟩)) (by decide +kernel)
  cases turns with
  | straight _ opens tail loop =>
      exact List.forall_mem_append.mpr ⟨fun e he => regular.inward_sound (opens e he),
        List.forall_mem_singleton.mpr (back (regular.endName tail) loop)⟩
  | @through inward tails dummy loop _ opens named _ offers first =>
      have own : EndName dummy := .of_isName (named ▸ isName_append (by decide +kernel) _)
      refine List.forall_mem_append.mpr ⟨List.forall_mem_append.mpr
        ⟨fun e he => regular.inward_sound (opens e he), fun e he => ?_⟩,
        List.forall_mem_singleton.mpr (back own first)⟩
      obtain ⟨s, hs, rfl⟩ := List.mem_map.mp he
      exact sound_link (regular.endName (offers s hs)) own (by rintro a ⟨⟩)
  | early early _ _ _ => exact absurd (late.symm.trans early) (by decide)

end Regular

theorem Sound.change (regular : b.Regular) (sound : b.Sound) {done : Prop}
    (change : Change Sealed done b c) : c.Sound := by
  cases change with
  | aside same held =>
      simp only [network, Prod.mk.injEq] at same
      refine ⟨same.1.trans sound.late, ?_, same.2.2.2.2.2.2 ▸ sound.graph⟩
      rcases held with kept | new
      · exact kept ▸ sound.held
      · exact new
  | @node kind content shape name text _ _ edges _ _ known labelled shaped named label settles =>
      have own : NodeName name := ⟨kind, known, _, named⟩
      have shapes : ∀ shape ∈ ["box", "diamond", "egg"], isName shape = true := by decide +kernel
      have drawn : ∀ e ∈ edges, e.Sound := by
        intro e he
        obtain ⟨tail, top, s, hs, rfl⟩ := settles.mem.2.2 e he
        have member : tail ∈ b.ends := List.mem_of_head? top
        exact sound_link ((regular.ends tail member).endName regular.named hs)
          (.of_isName own.isName) (by rintro a ⟨⟩)
      refine ⟨sound.late, sound.held, List.forall_mem_append.mpr
        ⟨sound.graph, List.forall_mem_cons.mpr ⟨⟨own.isName, ?_, shapes shape shaped⟩, drawn⟩⟩⟩
      rw [label]
      exact sound.sealed_nodeLabel labelled kind name
  | first _ => exact { sound with }
  | last _ => exact { sound with }
  | top _ => exact { sound with }
  | branches left =>
      obtain ⟨_, _, _, _, _, _, _, -, drew, rfl⟩ := left
      exact ⟨sound.late, sound.held, List.forall_mem_append.mpr
        ⟨sound.graph, fun e he => regular.inward_sound (drew.2 e he)⟩⟩

theorem Sound.progress (regular : b.Regular) (sound : b.Sound) {done : Prop}
    (progress : Progress Sealed done b c) : c.Sound := by
  rcases progress with change | turned
  · exact sound.change regular change
  · obtain ⟨_, _, _, _, _, _, _, -, drew, rfl⟩ := turned
    exact ⟨sound.late, sound.held,
      List.forall_mem_append.mpr ⟨sound.graph, regular.turns_sound sound.late drew⟩⟩

end Builder

/-- The text that becomes a label when the node of an event is entered. -/
def Event.header? : Event → Option String
  | .enter h ts =>
      if h.category ∈ [.functionDecl, .ifStmt, .forStmt] then ts[1]?.map Tree.text else none
  | _ => none

/-- The names of the functions, the conditions of the if statements and the headers of the loops in
a tree. -/
def Tree.headers (t : Tree) : List String := t.walk.filterMap Event.header?

theorem childText_eq_ok {ts : List Tree} {i : Nat} {text : String}
    (told : childText ts i = .ok text) : ∃ t ∈ ts[i]?, t.text = text := by
  unfold childText child at told
  split at told
  · cases told
  · split at told
    · cases told
      exact ⟨_, ‹_›, rfl⟩
    · cases told

/-- Headers that are tame make labels that are sealed. -/
theorem labelled_of_headers {es : List Event} (headers : ∀ s ∈ es.filterMap Event.header?, Tame s) :
    Labelled Sealed es := by
  intro e he h ts hook s told text member
  obtain ⟨t, found, rfl⟩ := childText_eq_ok told
  cases e with
  | leaf l => cases hook
  | leave head us =>
      obtain ⟨_, left, ⟨⟩⟩ := Option.map_eq_some_iff.mp hook
      unfold Hook.onLeave? at left
      split at left <;> cases left
      · cases List.mem_singleton.mp member
        exact (Tame.finish t.text).sealed
      all_goals cases member
  | enter head us =>
      obtain ⟨_, entered, ⟨⟩⟩ := Option.map_eq_some_iff.mp hook
      have tame (labels : head.category ∈ [.functionDecl, .ifStmt, .forStmt]) : Tame t.text := by
        refine headers t.text (List.mem_filterMap.mpr ⟨_, he, ?_⟩)
        rw [Event.header?, if_pos labels]
        exact Option.mem_map_of_mem Tree.text found
      unfold Hook.onEnter? at entered
      split at entered <;> cases entered
      · cases List.mem_singleton.mp member
        exact (tame (by simp [*])).sealed
      · cases member
      · cases member
      · cases member
      · cases member
      · cases List.mem_singleton.mp member
        exact (tame (by simp [*])).sealed
      · rcases List.mem_pair.mp member with rfl | rfl
        · exact (tame (by simp [*])).sealed
        · exact (tame (by simp [*])).loop.sealed

/-- The text of a graph that a walk of the late edition has drawn, completed or stopped, can be read
in one way only, and that gives its statements, word by word. A label is a single word that is
followed by the shape of its node, and it comes back as it was just if an even number of backslashes
stands before each quote in it. -/
theorem labels_read_back (t : Tree) (headers : ∀ s ∈ t.headers, Tame s) :
    let b := ((Builder.new .late).follow t).builder
    (∀ ws, ReadsWords b.source.toList ws [] ↔ ws = words "cfg" b.graph) ∧
      ∀ before name label shape after, b.graph = before ++ .node name label shape :: after →
        ∃ rest, ReadsWords b.source.toList
            (opening "cfg" ++ before.flatMap Statement.words ++
              [.id name, .mark "[", .id "label", .mark "="])
            ((quote label).toList ++ (" shape=".toList ++ rest)) ∧
          ∃ value, readWord ((quote label).toList ++ (" shape=".toList ++ rest)) =
              some (.id value, " shape=".toList ++ rest) ∧
            (value = label ↔ EvenlySlashed label.toList) := by
  intro b
  have sound : b.Sound := by
    have same : b = _ := (go_heed none (Builder.new .late) t.walk).1
    rw [same]
    exact (heed_keeps Tame.empty.sealed (labelled_of_headers headers) (.new .late)
      (fun regular sound => sound.progress regular) Sound.new).2
  have named : isName "cfg" = true := by decide +kernel
  refine ⟨fun ws => ⟨fun read => read.unique (readsWords_render named sound.graph), ?_⟩, ?_⟩
  · rintro rfl
    exact readsWords_render named sound.graph
  · intro before name label shape after split
    obtain ⟨rest, ahead, here⟩ := readsWords_label named (split ▸ sound.graph)
    rw [Builder.source, split]
    exact ⟨rest, ahead, settled label, here, settled_eq_iff label⟩

section

open GoFlow.Tree

/-- A loop whose header has an escaped quote in it. -/
def escapedQuote : Tree :=
  of .sourceFile [func "f" [forLoop "s != \"\\\"\"" [assign "s" "\"\\\\\""]]]

/-- The backslash of the header is lost, and everything else is read as it was written. -/
theorem escapedQuote_altered :
    let b := ((Builder.new .late).follow escapedQuote).builder
    let label := "for s != \"\\\"\""
    (∀ s ∈ escapedQuote.headers, Tame s) ∧ ReadsWords b.source.toList (words "cfg" b.graph) [] ∧
      ∃ rest value, readWord ((quote label).toList ++ (" shape=".toList ++ rest)) =
        some (.id value, " shape=".toList ++ rest) ∧ value ≠ label := by
  intro b label
  have tame : ∀ s ∈ escapedQuote.headers, Tame s := by
    have all : escapedQuote.headers = ["f", "s != \"\\\"\""] := by decide +kernel
    rw [all, List.forall_mem_cons, List.forall_mem_singleton]
    exact ⟨⟨by decide, by decide, by decide⟩, ⟨by decide, by decide, by decide⟩⟩
  have split : b.graph = [.node "f1" "f" "box"] ++ .node "l2" label "egg" :: b.graph.drop 2 := by
    decide +kernel
  obtain ⟨whole, each⟩ := labels_read_back escapedQuote tame
  obtain ⟨rest, -, value, read, same⟩ := each _ _ _ _ _ split
  refine ⟨tame, (whole _).mpr rfl, rest, value, read, fun equal => ?_⟩
  have odd := same.mp equal "for s != \"\\".toList ['\x22'] (by decide)
  exact absurd odd (by decide)

end

end GoFlow
