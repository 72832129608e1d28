import Mathlib.Data.List.Basic
import Mathlib.Data.List.TakeWhile

/-!
# Library — longest prefixes

What a scanner that goes on as long as it can reads of a text: the longest prefix of the text that
is a word of a language.  A word whose elements are of a class is longest when the text goes on with
an element outside the class.
-/

namespace CppLox

variable {α : Type}

/-- The longest prefix of a text that is a word of the language `L`. -/
structure LongestPrefix (L : List α → Prop) (text word : List α) : Prop where
  mem : L word
  isPrefix : word <+: text
  longest : ∀ other, L other → other <+: text → other.length ≤ word.length

/-- The text does not go on with an element of the class `p`. -/
def Stops (p : α → Bool) (rest : List α) : Prop := ∀ c ∈ rest.head?, p c = false

variable {p : α → Bool} {body rest word : List α}

theorem stops_nil : Stops p [] := nofun

theorem stops_cons {c : α} : Stops p (c :: rest) ↔ p c = false := by
  simp [Stops]

theorem stops_dropWhile (text : List α) : Stops p (text.dropWhile p) := by
  induction text with
  | nil => exact stops_nil
  | cons c text ih =>
      rw [List.dropWhile_cons]
      split
      · exact ih
      · rename_i hc
        exact stops_cons.mpr (by simpa using hc)

/-- A word of the class that the text leaves after it. -/
theorem Stops.takeWhile_append (h : Stops p rest) (hword : ∀ c ∈ word, p c = true) :
    (word ++ rest).takeWhile p = word := by
  rw [List.takeWhile_append_of_pos hword]
  cases rest with
  | nil => exact List.append_nil word
  | cons c rest =>
      rw [List.takeWhile_cons_of_neg (by simp [stops_cons.mp h]), List.append_nil]

/-- A word of the class ends where the text leaves the class. -/
theorem Stops.length_le (h : Stops p rest) (hword : ∀ c ∈ word, p c = true)
    (hword' : word <+: body ++ rest) : word.length ≤ body.length := by
  induction body generalizing word with
  | nil =>
      cases word with
      | nil => exact Nat.le_refl _
      | cons c word =>
          obtain ⟨tail, htail⟩ := hword'
          rw [List.nil_append] at htail
          rw [← htail, List.cons_append, stops_cons] at h
          rw [hword c List.mem_cons_self] at h
          cases h
  | cons b body ih =>
      cases word with
      | nil => exact Nat.zero_le _
      | cons c word =>
          have htail := (List.cons_prefix_cons.mp hword').2
          exact Nat.succ_le_succ (ih (fun d hd => hword d (List.mem_cons_of_mem c hd)) htail)

/-- Two words of the class, each followed by an element outside it, in one text. -/
theorem eq_of_prefix_append {word' u v : List α} {x y : α} (hword : ∀ c ∈ word, p c = true)
    (hword' : ∀ c ∈ word', p c = true) (hx : p x = false) (hy : p y = false)
    (h : word ++ x :: u <+: word' ++ y :: v) : word = word' ∧ x = y ∧ u <+: v := by
  induction word generalizing word' with
  | nil =>
      cases word' with
      | nil => exact ⟨rfl, List.cons_prefix_cons.mp h⟩
      | cons c word' =>
          have hc := (List.cons_prefix_cons.mp h).1
          rw [hc, hword' c List.mem_cons_self] at hx
          cases hx
  | cons b word ih =>
      cases word' with
      | nil =>
          have hb := (List.cons_prefix_cons.mp h).1
          rw [← hb, hword b List.mem_cons_self] at hy
          cases hy
      | cons c word' =>
          obtain ⟨rfl, htail⟩ := List.cons_prefix_cons.mp h
          obtain ⟨rfl, hrest⟩ := ih (fun d hd => hword d (List.mem_cons_of_mem b hd))
            (fun d hd => hword' d (List.mem_cons_of_mem b hd)) htail
          exact ⟨rfl, hrest⟩

namespace LongestPrefix

variable {L : List α → Prop} {text word' : List α}

theorem unique (h : LongestPrefix L text word) (h' : LongestPrefix L text word') : word = word' :=
  (List.prefix_of_prefix_length_le h.isPrefix h'.isPrefix
    (h'.longest word h.mem h.isPrefix)).eq_of_length_le (h.longest word' h'.mem h'.isPrefix)

/-- A word is longest when the text leaves the class of its elements. -/
theorem of_stops (hmem : L word) (hclass : ∀ other, L other → ∀ c ∈ other, p c = true)
    (h : Stops p rest) : LongestPrefix L (word ++ rest) word where
  mem := hmem
  isPrefix := List.prefix_append word rest
  longest other hother hother' := h.length_le (hclass other hother) hother'

end LongestPrefix

end CppLox
