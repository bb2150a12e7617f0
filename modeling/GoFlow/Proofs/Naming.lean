import GoFlow.Flow.Builder
import Mathlib.Data.List.DropRight

/-! Names of nodes. A name is a kind, which is made of letters, followed by a number; an end of an
edge is a name that may be followed by a colon and a port. -/

namespace GoFlow

/-- The decimal number at the end of a name. -/
def nodeNumber (s : String) : Nat := Nat.ofDigitChars 10 (s.toList.rtakeWhile Char.isDigit) 0

/-- The node at an end of an edge, without its port. -/
def Dot.endNode (s : String) : String := (Dot.cutAtColon s).1

open Dot (endNode)

/-- A text in which no digit and no colon occurs. -/
def Lettered (kind : String) : Prop := ∀ c ∈ kind.toList, c.isDigit = false ∧ c ≠ ':'

instance (kind : String) : Decidable (Lettered kind) :=
  List.decidableBAll (fun c : Char => c.isDigit = false ∧ c ≠ ':') kind.toList

theorem rtakeWhile_append_of_neg {α : Type} {p : α → Bool} (xs ys : List α)
    (hx : ∀ a ∈ xs, p a = false) (hy : ∀ a ∈ ys, p a = true) : (xs ++ ys).rtakeWhile p = ys := by
  have all : ∀ a ∈ ys.reverse, p a = true := fun a ha => hy a (List.mem_reverse.mp ha)
  have stop : xs.reverse.takeWhile p = [] := by
    cases h : xs.reverse with
    | nil => rfl
    | cons a as =>
        have ha : p a = false := hx a (by rw [← List.mem_reverse, h]; exact List.mem_cons_self)
        exact List.takeWhile_cons_of_neg (by simp [ha])
  rw [List.rtakeWhile, List.reverse_append, List.takeWhile_append_of_pos all, stop, List.append_nil,
    List.reverse_reverse]

theorem toList_toString (n : Nat) : (toString n).toList = Nat.toDigits 10 n := by
  rw [Nat.toString_eq_repr, Nat.toList_repr]

theorem isDigit_of_mem_toString {n : Nat} {c : Char} (h : c ∈ (toString n).toList) :
    c.isDigit = true := by
  rw [toList_toString] at h
  exact Nat.isDigit_of_mem_toDigits (by decide) (by decide) h

theorem nodeNumber_append {kind : String} (h : Lettered kind) (n : Nat) :
    nodeNumber (kind ++ toString n) = n := by
  rw [nodeNumber, String.toList_append,
    rtakeWhile_append_of_neg _ _ (fun c hc => (h c hc).1) (fun c hc => isDigit_of_mem_toString hc),
    toList_toString]
  exact Nat.ofDigitChars_ten_toDigits

theorem endNode_of_no_colon {s : String} (h : ':' ∉ s.toList) : endNode s = s := by
  have all : ∀ c ∈ s.toList, (c != ':') = true := by
    intro c hc
    simp only [bne_iff_ne, ne_eq]
    rintro rfl
    exact h hc
  simp only [endNode, Dot.cutAtColon, List.takeWhile_eq_self_iff.mpr all, String.ofList_toList]

theorem colon_not_mem_append {kind : String} (h : Lettered kind) (n : Nat) :
    ':' ∉ (kind ++ toString n).toList := by
  intro member
  rw [String.toList_append, List.mem_append] at member
  rcases member with left | right
  · exact (h ':' left).2 rfl
  · exact absurd (isDigit_of_mem_toString right) (by decide)

theorem endNode_append {kind : String} (h : Lettered kind) (n : Nat) :
    endNode (kind ++ toString n) = kind ++ toString n :=
  endNode_of_no_colon (colon_not_mem_append h n)

theorem endNode_port {s : String} (h : ':' ∉ s.toList) (port : String) :
    endNode (s ++ ":" ++ port) = s := by
  have all : ∀ c ∈ s.toList, (c != ':') = true := by
    intro c hc
    simp only [bne_iff_ne, ne_eq]
    rintro rfl
    exact h hc
  have cut : (s ++ ":" ++ port).toList.takeWhile (· != ':') = s.toList := by
    rw [String.toList_append, String.toList_append, List.append_assoc,
      List.takeWhile_append_of_pos all]
    change s.toList ++ List.takeWhile (· != ':') (':' :: port.toList) = s.toList
    rw [List.takeWhile_cons_of_neg (by decide), List.append_nil]
  simp only [endNode, Dot.cutAtColon, cut, String.ofList_toList]

namespace Move

/-- The name with a port, unless it has one of its own. -/
def ported (name port : String) : String :=
  if ':' ∈ name.toList then name else name ++ ":" ++ port

theorem directed_name (name port : String) :
    (Item.name name).directed port = .name (ported name port) := by
  simp only [Item.directed, ported, List.contains_iff_mem]
  split <;> rfl

/-- Giving an end a direction leaves its node as it is. -/
theorem endNode_ported (s port : String) : endNode (ported s port) = endNode s := by
  unfold ported
  split
  · rfl
  · next absent => rw [endNode_port absent, endNode_of_no_colon absent]

end Move

end GoFlow
