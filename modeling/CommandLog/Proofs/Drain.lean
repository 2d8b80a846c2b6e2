import Mathlib.Order.Lattice
import CommandLog.Drain

/-! # Draining is fair

Workers are waited for one after another, up to one common deadline. The verdict on each of them
depends on its own time of completion only: whoever is over by the deadline has finished, however
late in the list it stands, and all others are aborted. The wait ends with the last worker, or at
the deadline.
-/

namespace CommandLog.Drain

variable {α : Type} {deadline now start grace b : Nat} {c : Option Nat} {cs : List (Option Nat)}

def outcome (deadline : Nat) (completion : Option Nat) : Verdict :=
  if isOverAt completion deadline then .finished else .aborted

def latest (now : Nat) (completions : List (Option Nat)) : Nat :=
  completions.foldr (fun c t => max (c.getD 0) t) now

/-- When a wait that begins now ends. -/
def finish (deadline now : Nat) (completions : List (Option Nat)) : Nat :=
  if completions.all (isOverAt · deadline) then latest now completions else deadline

theorem exists_of_isOverAt (h : isOverAt c deadline = true) : ∃ t, c = some t ∧ t ≤ deadline := by
  cases c with
  | none => cases h
  | some t => exact ⟨t, rfl, by simpa [isOverAt] using h⟩

theorem outcome_some {t : Nat} (h : t ≤ deadline) : outcome deadline (some t) = .finished := by
  simp [outcome, isOverAt, h]

theorem latest_le_iff : latest now cs ≤ b ↔ now ≤ b ∧ ∀ t, some t ∈ cs → t ≤ b := by
  induction cs with
  | nil => simp [latest]
  | cons c cs ih =>
    rw [latest, List.foldr_cons, ← latest, sup_le_iff, ih]
    cases c with
    | none => simp
    | some t => simp [or_imp, forall_and, and_left_comm]

theorem finish_nil : finish deadline now [] = now := rfl

theorem finish_of_mem (hc : c ∈ cs) (h : isOverAt c deadline = false) :
    finish deadline now cs = deadline := by
  refine if_neg fun hall => ?_
  have hover := List.all_eq_true.mp hall c hc
  rw [h] at hover
  cases hover

theorem finish_deadline : finish deadline deadline cs = deadline := by
  unfold finish
  split
  case isTrue hall =>
    refine le_antisymm (latest_le_iff.mpr ⟨le_rfl, fun t ht => ?_⟩) (latest_le_iff.mp le_rfl).1
    simpa [isOverAt] using List.all_eq_true.mp hall _ ht
  case isFalse => rfl

theorem finish_cons (hn : now ≤ deadline) :
    finish deadline now (c :: cs) = finish deadline (waitEnd deadline now c) cs := by
  cases h : isOverAt c deadline with
  | false =>
    have hw : waitEnd deadline now c = deadline := by
      cases c with
      | none => simp [waitEnd, hn]
      | some t =>
        have ht : deadline < t := by simpa [isOverAt] using h
        simp [waitEnd, ht.le, hn]
    rw [hw, finish_deadline, finish_of_mem List.mem_cons_self h]
  | true =>
    obtain ⟨t, rfl, ht⟩ := exists_of_isOverAt h
    have hw : waitEnd deadline now (some t) = max now t := by simp [waitEnd, ht]
    have hl : latest now (some t :: cs) = latest (max now t) cs :=
      eq_of_forall_ge_iff fun b => by
        simp [latest_le_iff, or_imp, forall_and, and_assoc]
    simp only [finish, List.all_cons, h, Bool.true_and, hl, hw]

theorem finish_le_iff (h : ∀ c ∈ cs, isOverAt c deadline = true) :
    finish deadline now cs ≤ b ↔ now ≤ b ∧ ∀ c ∈ cs, isOverAt c b = true := by
  rw [finish, if_pos (List.all_eq_true.mpr h), latest_le_iff]
  refine and_congr_right fun _ => ⟨fun hb c hc => ?_, fun hb t ht => ?_⟩
  · obtain ⟨t, rfl, -⟩ := exists_of_isOverAt (h c hc)
    simpa [isOverAt] using hb t hc
  · simpa [isOverAt] using hb _ ht

theorem isOverAt_congr {now now' : Nat} {c' : Option Nat} (hn : now ≤ now') (hd : now' ≤ deadline)
    (h : c = c' ∨ c = some now ∧ c' = some now') : isOverAt c deadline = isOverAt c' deadline := by
  rcases h with rfl | ⟨rfl, rfl⟩
  · rfl
  · simp [isOverAt, hd, hn.trans hd]

/-- Time may pass before the wait begins as long as somebody is unfinished. -/
theorem finish_congr {now now' : Nat} {f f' : α → Option Nat} {xs : List α} (hn : now ≤ now')
    (hd : now' ≤ deadline) (hf : ∀ x ∈ xs, f x = f' x ∨ f x = some now ∧ f' x = some now')
    (hlater : now' = now ∨ ∃ x ∈ xs, ∀ t, f x = some t → now' ≤ t) :
    finish deadline now (xs.map f) = finish deadline now' (xs.map f') := by
  have hover : ∀ x ∈ xs, isOverAt (f x) deadline = isOverAt (f' x) deadline := fun x hx =>
    isOverAt_congr hn hd (hf x hx)
  by_cases hall : ∀ x ∈ xs, isOverAt (f x) deadline = true
  · have hall' : ∀ x ∈ xs, isOverAt (f' x) deadline = true := fun x hx => hover x hx ▸ hall x hx
    refine eq_of_forall_ge_iff fun b => ?_
    rw [finish_le_iff (List.forall_mem_map.mpr hall), finish_le_iff (List.forall_mem_map.mpr hall'),
      List.forall_mem_map, List.forall_mem_map]
    constructor
    · rintro ⟨hb, hxs⟩
      have hb' : now' ≤ b := by
        rcases hlater with rfl | ⟨x, hx, ht⟩
        · exact hb
        · obtain ⟨t, he, htb⟩ := exists_of_isOverAt (hxs x hx)
          exact (ht t he).trans htb
      exact ⟨hb', fun x hx => isOverAt_congr hn hb' (hf x hx) ▸ hxs x hx⟩
    · rintro ⟨hb, hxs⟩
      exact ⟨hn.trans hb, fun x hx => isOverAt_congr hn hb (hf x hx) ▸ hxs x hx⟩
  · obtain ⟨x, hx, hno⟩ : ∃ x ∈ xs, isOverAt (f x) deadline = false := by simpa using hall
    rw [finish_of_mem (List.mem_map_of_mem hx) hno,
      finish_of_mem (List.mem_map_of_mem hx) ((hover x hx).symm.trans hno)]

/-- Each verdict is that on the worker alone, and the last one falls when the wait for all ends. -/
theorem verdicts_eq (hn : now ≤ deadline) :
    verdicts deadline now cs = (cs.map (outcome deadline), finish deadline now cs) := by
  induction cs generalizing now with
  | nil => rfl
  | cons c cs ih =>
    have hw : waitEnd deadline now c ≤ deadline := by
      cases c with
      | none => simp [waitEnd, hn]
      | some t => simp [waitEnd, hn]
    have hv : verdict deadline (waitEnd deadline now c) (isOverAt c (waitEnd deadline now c)) =
        outcome deadline c := by
      cases c with
      | none => simp [verdict, outcome, isOverAt, waitEnd]
      | some t =>
        rcases Nat.le_total t deadline with ht | ht
        · simp [verdict, outcome, isOverAt, waitEnd, ht]
        · simp only [verdict, outcome, isOverAt, waitEnd, Option.elim_some, Option.any_some,
            Nat.min_eq_left ht, Nat.max_eq_right hn]
          simp
    simp only [verdicts, ih hw, hv, List.map_cons, finish_cons hn]

def settled (start grace : Nat) (workers : List (α × Option Nat)) : List (α × Verdict) :=
  (workers.map Prod.fst).zip (run start grace (workers.map Prod.snd)).1

theorem settled_eq (start grace : Nat) (workers : List (α × Option Nat)) :
    settled start grace workers = workers.map fun w => (w.1, outcome (start + grace) w.2) := by
  rw [settled, run, verdicts_eq (Nat.le_add_right _ _), List.map_map, List.zip_map']
  rfl

/-- The times of completion alone decide who is aborted, and when the drain is over. -/
structure Fair (start grace : Nat) (workers : List (α × Option Nat)) : Prop where
  verdicts : settled start grace workers = workers.map fun w =>
    (w.1, if isOverAt w.2 (start + grace) then Verdict.finished else Verdict.aborted)
  /-- Whoever finishes before the deadline is let go, wherever it stands in the list. -/
  spares : ∀ (i : Nat) a t, workers[i]? = some (a, some t) → t < start + grace →
    (settled start grace workers)[i]? = some (a, Verdict.finished)
  late : (∃ w ∈ workers, isOverAt w.2 (start + grace) = false) →
    (run start grace (workers.map Prod.snd)).2 = start + grace
  early : (∀ w ∈ workers, isOverAt w.2 (start + grace) = true) → ∀ b,
    (run start grace (workers.map Prod.snd)).2 ≤ b ↔
      start ≤ b ∧ ∀ w ∈ workers, isOverAt w.2 b = true
  order : ∀ workers', workers'.Perm workers →
    (settled start grace workers').Perm (settled start grace workers) ∧
      (run start grace (workers'.map Prod.snd)).2 = (run start grace (workers.map Prod.snd)).2

theorem run_snd (start grace : Nat) (cs : List (Option Nat)) :
    (run start grace cs).2 = finish (start + grace) start cs := by
  rw [run, verdicts_eq (Nat.le_add_right _ _)]

theorem finish_perm {cs' : List (Option Nat)} (hp : cs'.Perm cs) :
    finish deadline now cs' = finish deadline now cs := by
  by_cases h : ∀ c ∈ cs, isOverAt c deadline = true
  · have h' : ∀ c ∈ cs', isOverAt c deadline = true := fun c hc => h c (hp.mem_iff.mp hc)
    refine eq_of_forall_ge_iff fun b => ?_
    simp only [finish_le_iff h, finish_le_iff h', hp.mem_iff]
  · obtain ⟨c, hc, hn⟩ : ∃ c ∈ cs, isOverAt c deadline = false := by simpa using h
    rw [finish_of_mem hc hn, finish_of_mem (hp.mem_iff.mpr hc) hn]

theorem fair (start grace : Nat) (workers : List (α × Option Nat)) : Fair start grace workers where
  verdicts := settled_eq start grace workers
  spares i a t hi ht := by
    simp [settled_eq, hi, outcome_some ht.le]
  late := by
    rintro ⟨w, hw, hn⟩
    rw [run_snd]
    exact finish_of_mem (List.mem_map_of_mem hw) hn
  early h b := by
    rw [run_snd, finish_le_iff (List.forall_mem_map.mpr h), List.forall_mem_map]
  order workers' hp := by
    rw [settled_eq, settled_eq, run_snd, run_snd]
    exact ⟨hp.map _, finish_perm (hp.map _)⟩

end CommandLog.Drain
