import CommandLog.Proofs.Framing.Wire

/-! # Lines of a byte string

Every byte string is in one way a sequence of lines with a rest that holds no newline. The lines of
a longer byte string are therefore those of its front, and then those that the rest of the front
makes together with what follows.
-/

namespace CommandLog.Bytes

variable {s l rest : Bytes} {ls : List Bytes}

/-- A line ends with its only newline. -/
def IsLine (l : Bytes) : Prop :=
  ∃ body, newline ∉ body ∧ l = body ++ [newline]

theorem splitLines_of_not_mem (h : newline ∉ s) : s.splitLines = ([], s) := by
  induction s with
  | nil => rfl
  | cons b s ih =>
    rw [List.mem_cons, not_or] at h
    simp [splitLines, ih h.2, Ne.symm h.1]

theorem splitLines_line_append (h : l.IsLine) (t : Bytes) :
    splitLines (l ++ t) = (l :: t.lines, t.unfinished) := by
  obtain ⟨body, hn, rfl⟩ := h
  induction body with
  | nil => simp [splitLines, lines, unfinished]
  | cons b body ih =>
    rw [List.mem_cons, not_or] at hn
    rw [List.cons_append, List.cons_append, splitLines, ih hn.2]
    simp [Ne.symm hn.1]

theorem splitLines_flatten_append (hl : ∀ l ∈ ls, l.IsLine) (hr : newline ∉ rest) :
    splitLines (ls.flatten ++ rest) = (ls, rest) := by
  induction ls with
  | nil => exact splitLines_of_not_mem hr
  | cons l ls ih =>
    have ht := ih fun l' h => hl l' (List.mem_cons_of_mem _ h)
    rw [List.flatten_cons, List.append_assoc, splitLines_line_append (hl l List.mem_cons_self)]
    simp [lines, unfinished, ht]

theorem exists_lines (s : Bytes) :
    ∃ (ls : List Bytes) (rest : Bytes),
      (∀ l ∈ ls, l.IsLine) ∧ newline ∉ rest ∧ s = ls.flatten ++ rest := by
  induction s with
  | nil => exact ⟨[], [], nofun, List.not_mem_nil, rfl⟩
  | cons b s ih =>
    obtain ⟨ls, rest, hl, hr, rfl⟩ := ih
    by_cases hb : b = newline
    · refine ⟨[b] :: ls, rest, ?_, hr, rfl⟩
      rintro l (_ | ⟨_, hm⟩)
      · exact ⟨[], List.not_mem_nil, by rw [hb]; rfl⟩
      · exact hl l hm
    · cases ls with
      | nil => exact ⟨[], b :: rest, nofun, by simp [Ne.symm hb, hr], rfl⟩
      | cons l' ls =>
        -- the byte joins the line that follows it
        obtain ⟨body, hn, rfl⟩ := hl l' List.mem_cons_self
        refine ⟨(b :: body ++ [newline]) :: ls, rest, ?_, hr, rfl⟩
        rintro l (_ | ⟨_, hm⟩)
        · exact ⟨b :: body, by simp [Ne.symm hb, hn], rfl⟩
        · exact hl l (List.mem_cons_of_mem _ hm)

/-- There is one way to cut a byte string into lines and a rest. -/
theorem splitLines_eq_iff : s.splitLines = (ls, rest) ↔
    (∀ l ∈ ls, l.IsLine) ∧ newline ∉ rest ∧ s = ls.flatten ++ rest := by
  constructor
  · intro h
    obtain ⟨ls', rest', hl, hr, rfl⟩ := exists_lines s
    rw [splitLines_flatten_append hl hr] at h
    obtain ⟨rfl, rfl⟩ := Prod.mk.inj h
    exact ⟨hl, hr, rfl⟩
  · rintro ⟨hl, hr, rfl⟩
    exact splitLines_flatten_append hl hr

theorem isLine_of_mem_lines (h : l ∈ s.lines) : l.IsLine :=
  (splitLines_eq_iff.mp rfl).1 l h

theorem newline_not_mem_unfinished (s : Bytes) : newline ∉ s.unfinished :=
  (splitLines_eq_iff.mp rfl).2.1

theorem flatten_lines_append_unfinished (s : Bytes) : s.lines.flatten ++ s.unfinished = s :=
  (splitLines_eq_iff.mp rfl).2.2.symm

theorem length_lines (s : Bytes) : s.lines.length = s.count newline := by
  have hline : ∀ l ∈ s.lines, l.count newline = 1 := by
    intro l hl
    obtain ⟨body, hn, rfl⟩ := isLine_of_mem_lines hl
    rw [List.count_append, List.count_eq_zero_of_not_mem hn]
    rfl
  have hrest := List.count_eq_zero_of_not_mem s.newline_not_mem_unfinished
  calc s.lines.length
    _ = (s.lines.map fun _ => 1).sum := by rw [List.map_const', List.sum_replicate_nat, Nat.mul_one]
    _ = (s.lines.map (List.count newline)).sum := by rw [List.map_congr_left hline]
    _ = (s.lines.flatten ++ s.unfinished).count newline := by
      rw [List.count_append, hrest, List.count_flatten, Nat.add_zero]
    _ = s.count newline := by rw [flatten_lines_append_unfinished]

theorem unfinished_eq_nil (h : s.getLast? = some newline) : s.unfinished = [] := by
  rcases List.eq_nil_or_concat s.unfinished with hnil | ⟨body, b, hbody⟩
  · exact hnil
  · have hn := s.newline_not_mem_unfinished
    rw [← s.flatten_lines_append_unfinished, hbody, List.concat_eq_append, ← List.append_assoc,
      List.getLast?_concat] at h
    rw [hbody, Option.some.inj h] at hn
    exact absurd (by simp) hn

theorem flatten_lines (h : s.unfinished = []) : s.lines.flatten = s := by
  have hs := s.flatten_lines_append_unfinished
  rwa [h, List.append_nil] at hs

/-- What follows a byte string is cut into lines together with its rest. -/
theorem splitLines_append (s t : Bytes) : splitLines (s ++ t) =
    (s.lines ++ lines (s.unfinished ++ t), unfinished (s.unfinished ++ t)) := by
  refine splitLines_eq_iff.mpr ⟨fun l hm => ?_, newline_not_mem_unfinished _, ?_⟩
  · rcases List.mem_append.mp hm with hm | hm <;> exact isLine_of_mem_lines hm
  · rw [List.flatten_append, List.append_assoc, flatten_lines_append_unfinished,
      ← List.append_assoc, flatten_lines_append_unfinished]

theorem lines_append (s t : Bytes) : lines (s ++ t) = s.lines ++ lines (s.unfinished ++ t) := by
  rw [lines, splitLines_append]

theorem unfinished_append (s t : Bytes) : unfinished (s ++ t) = unfinished (s.unfinished ++ t) := by
  rw [unfinished, splitLines_append]

theorem splitLines_of_firstLine? (h : s.firstLine? = some (l, rest)) :
    s.splitLines = (l :: rest.lines, rest.unfinished) := by
  obtain ⟨body, hn, hl, rfl⟩ := firstLine?_eq_some_iff.mp h
  exact splitLines_line_append ⟨body, hn, hl⟩ rest

end CommandLog.Bytes
