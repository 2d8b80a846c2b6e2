import CommandLog.Device
import CommandLog.Proofs.Store.Content

/-! # Growing without loss

As long as there is room, appends drop nothing: the new records come after those that were held,
and the content grows at its end. There is room for as many records as slots are unused.
-/

namespace CommandLog.Store

open Record

variable {s : Store} {rs rs' : List Record} {r : Record}

/-- None of the records drops another when they are appended one after the other. -/
def Keeps (s : Store) : List Record → Prop
  | [] => True
  | r :: rs => (s.append r).2 = false ∧ (s.append r).1.Keeps rs

instance decidableKeeps : ∀ (s : Store) (rs : List Record), Decidable (s.Keeps rs)
  | _, [] => .isTrue trivial
  | s, r :: rs =>
    have := decidableKeeps (s.append r).1 rs
    inferInstanceAs (Decidable (_ ∧ _))

@[simp] theorem appendAll_nil (s : Store) : s.appendAll [] = s := rfl

@[simp] theorem appendAll_cons (s : Store) (r : Record) (rs : List Record) :
    s.appendAll (r :: rs) = (s.append r).1.appendAll rs := rfl

theorem appendAll_append (s : Store) (rs rs' : List Record) :
    s.appendAll (rs ++ rs') = (s.appendAll rs).appendAll rs' :=
  List.foldl_append

theorem keeps_append :
    s.Keeps (rs ++ rs') ↔ s.Keeps rs ∧ (s.appendAll rs).Keeps rs' := by
  induction rs generalizing s with
  | nil => simp [Keeps]
  | cons r rs ih => simp [Keeps, ih, and_assoc]

theorem Sound.appendAll (h : s.Sound) (rs : List Record) : (s.appendAll rs).Sound := by
  induction rs generalizing s with
  | nil => exact h
  | cons r rs ih => exact ih (h.append r)

theorem Holds.append_of_not_full (h : s.Holds rs) (hf : (s.append r).2 = false) :
    (s.append r).1.Holds (rs ++ [r]) := by
  have hlt : rs.length < s.capacity := by
    refine lt_of_le_of_ne h.fits fun he => ?_
    rw [append_snd, h.isFull_iff.mpr he] at hf
    cases hf
  have hr := h.append r
  rwa [List.rtake, Nat.sub_eq_zero_of_le (by simpa using Nat.succ_le_of_lt hlt),
    List.drop_zero] at hr

theorem Holds.appendAll_of_keeps (h : s.Holds rs) (hk : s.Keeps rs') :
    (s.appendAll rs').Holds (rs ++ rs') := by
  induction rs' generalizing s rs with
  | nil => simpa using h
  | cons r rs' ih =>
    obtain ⟨hf, hk⟩ := hk
    simpa using ih (h.append_of_not_full hf) hk

/-- There is room for as many records as slots are unused. -/
theorem Holds.keeps_iff (h : s.Holds rs) :
    s.Keeps rs' ↔ rs.length + rs'.length ≤ s.capacity := by
  induction rs' generalizing s rs with
  | nil => simpa [Keeps] using h.fits
  | cons r rs' ih =>
    have hroom (hf : (s.append r).2 = false) :
        (s.append r).1.Keeps rs' ↔ rs.length + (r :: rs').length ≤ s.capacity := by
      rw [ih (h.append_of_not_full hf), capacity_append, List.length_append, Nat.add_assoc,
        Nat.add_comm [r].length]
      rfl
    constructor
    · rintro ⟨hf, hk⟩
      exact (hroom hf).mp hk
    · intro hle
      have hf : (s.append r).2 = false := by
        rw [append_snd, ← Bool.not_eq_true, h.isFull_iff]
        rw [List.length_cons] at hle
        omega
      exact ⟨hf, (hroom hf).mpr hle⟩

theorem Sound.content_appendAll (h : s.Sound) (hk : s.Keeps rs) :
    (s.appendAll rs).content = s.content ++ joined rs := by
  obtain ⟨rs₀, h⟩ := h
  rw [(h.appendAll_of_keeps hk).content, h.content, joined_append]

theorem Sound.length_content (h : s.Sound) : s.content.length = s.size :=
  let ⟨_, h⟩ := h; h.length_content

end CommandLog.Store
