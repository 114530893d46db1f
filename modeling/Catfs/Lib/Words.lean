import Mathlib.Data.List.Basic

/-! # Words that a separator ends

A list cut into words without the separator, each followed by it, can be cut in one way only. -/

namespace Lib

variable {α : Type} {sep : α} {ws vs : List (List α)} {n v rest tail : List α}

/-- The words one after the other, each followed by `sep`. -/
def terminated (sep : α) (ws : List (List α)) : List α := ws.flatMap fun w => w ++ [sep]

@[simp] theorem terminated_nil : terminated sep [] = [] := rfl

@[simp] theorem terminated_cons : terminated sep (v :: ws) = v ++ sep :: terminated sep ws := by
  simp [terminated]

theorem terminated_append : terminated sep (ws ++ vs) = terminated sep ws ++ terminated sep vs := by
  simp [terminated]

/-- `rest` is empty or begins with the separator. -/
def WordEnd (sep : α) (rest : List α) : Prop := rest = [] ∨ ∃ r, rest = sep :: r

theorem wordEnd_nil : WordEnd sep [] := .inl rfl

theorem wordEnd_cons : WordEnd sep (sep :: rest) := .inr ⟨rest, rfl⟩

/-- A word ends at the first separator. -/
theorem word_unique (hn : sep ∉ n) (hv : sep ∉ v) (hrest : WordEnd sep rest) (htail : WordEnd sep tail)
    (h : n ++ rest = v ++ tail) : n = v ∧ rest = tail := by
  induction n generalizing v with
  | nil =>
    cases v with
    | nil => exact ⟨rfl, h⟩
    | cons x v =>
      rcases hrest with rfl | ⟨r, rfl⟩
      · cases h
      · exact absurd (List.cons.inj h).1 (List.ne_of_not_mem_cons hv)
  | cons y n ih =>
    cases v with
    | nil =>
      rcases htail with rfl | ⟨r, rfl⟩
      · cases h
      · exact absurd (List.cons.inj h).1.symm (List.ne_of_not_mem_cons hn)
    | cons x v =>
      obtain ⟨rfl, ht⟩ := List.cons.inj h
      obtain ⟨rfl, hr⟩ := ih (List.not_mem_of_not_mem_cons hn) (List.not_mem_of_not_mem_cons hv) ht
      exact ⟨rfl, hr⟩

/-- `n` is the next word after `ws` in a text that ends in the word `v`: it is that word, or an earlier one. -/
theorem next_word {last : List α} (hws : ∀ w ∈ ws, sep ∉ w) (hvs : ∀ w ∈ vs, sep ∉ w) (hn : sep ∉ n) (hv : sep ∉ v)
    (hne : n ≠ []) (hrest : WordEnd sep rest) (hlast : last = [] ∨ last = [sep])
    (h : terminated sep ws ++ (n ++ rest) = terminated sep vs ++ (v ++ last)) :
    (ws = vs ∧ n = v) ∨ ∃ us, vs = ws ++ n :: us := by
  have hends : WordEnd sep last := hlast.elim .inl fun h => .inr ⟨[], h⟩
  induction ws generalizing vs with
  | nil =>
    cases vs with
    | nil => exact .inl ⟨rfl, (word_unique hn hv hrest hends h).1⟩
    | cons w vs =>
      rw [terminated_nil, List.nil_append, terminated_cons, List.append_assoc, List.cons_append] at h
      obtain ⟨rfl, -⟩ := word_unique hn (hvs w (List.mem_cons_self ..)) hrest wordEnd_cons h
      exact .inr ⟨vs, rfl⟩
  | cons w ws ih =>
    have hw := hws w (List.mem_cons_self ..)
    rw [terminated_cons, List.append_assoc, List.cons_append] at h
    cases vs with
    | nil =>
      -- The text ends with the word after `vs`, so nothing is left for `n`.
      obtain ⟨-, hl⟩ := word_unique hw hv wordEnd_cons hends h
      have hlen := congrArg List.length hl
      rcases hlast with rfl | rfl
      · cases hl
      · have : 0 < n.length := List.length_pos_iff.mpr hne
        simp only [List.length_cons, List.length_append, List.length_nil] at hlen
        omega
    | cons w' vs =>
      rw [terminated_cons, List.append_assoc, List.cons_append] at h
      obtain ⟨rfl, ht⟩ := word_unique hw (hvs w' (List.mem_cons_self ..)) wordEnd_cons wordEnd_cons h
      have hrec := ih (fun w hw => hws w (List.mem_cons_of_mem _ hw)) (fun w hw => hvs w (List.mem_cons_of_mem _ hw))
        (List.cons.inj ht).2
      rcases hrec with ⟨rfl, rfl⟩ | ⟨us, rfl⟩
      · exact .inl ⟨rfl, rfl⟩
      · exact .inr ⟨us, rfl⟩

end Lib
