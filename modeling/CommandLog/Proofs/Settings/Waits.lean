import CommandLog.Settings.Basic

/-! # Waits in milliseconds

The two waits among the settings are kept as milliseconds in a word. What is left over below a
millisecond is dropped, and so are the whole words in a wait that is too long for one: what is kept
of it can be shorter than what is kept of a short one.
-/

namespace CommandLog

namespace Span

variable {t u : Span}

/-- What is left of a span that went through a word of milliseconds. -/
def kept (t : Span) : Span :=
  .ofMilliseconds t.toMilliseconds.toNat

/-- The nanoseconds in a whole word of milliseconds. -/
def word : Nat :=
  1000000 * UInt64.size

def Fits (t : Span) : Prop :=
  t.nanoseconds < word

/-- What a span is longer than whole words of milliseconds. -/
def pastWords (t : Span) : Span :=
  ⟨t.nanoseconds % word⟩

/-- The second span is not longer than the first, and shorter by less than a millisecond. -/
def Near (t u : Span) : Prop :=
  u.nanoseconds ≤ t.nanoseconds ∧ t.nanoseconds < u.nanoseconds + 1000000

theorem pastWords_le (t : Span) : t.pastWords.nanoseconds ≤ t.nanoseconds :=
  Nat.mod_le _ _

theorem pastWords_fits (t : Span) : t.pastWords.Fits :=
  Nat.mod_lt _ (by decide)

theorem Fits.pastWords_eq (ht : t.Fits) : t.pastWords = t :=
  congrArg Span.mk (Nat.mod_eq_of_lt ht)

theorem kept_nanoseconds (t : Span) :
    t.kept.nanoseconds = t.pastWords.nanoseconds / 1000000 * 1000000 := by
  have hword : t.pastWords.nanoseconds / 1000000 = t.nanoseconds / 1000000 % UInt64.size :=
    Nat.mod_mul_right_div_self t.nanoseconds 1000000 UInt64.size
  rw [kept, ofMilliseconds, toMilliseconds, UInt64.toNat_ofNat', hword]

theorem pastWords_near_kept (t : Span) : t.pastWords.Near t.kept := by
  rw [Near, kept_nanoseconds]
  omega

theorem kept_le (t : Span) : t.kept.nanoseconds ≤ t.nanoseconds :=
  Nat.le_trans t.pastWords_near_kept.1 t.pastWords_le

/-- What is kept ends at a whole millisecond, so that no longer span is near it than fits. -/
theorem near_kept_iff : t.Near t.kept ↔ t.Fits := by
  constructor
  · rintro ⟨-, hnear⟩
    have hfits : t.pastWords.nanoseconds < 1000000 * UInt64.size := t.pastWords_fits
    rw [kept_nanoseconds] at hnear
    rw [Fits, word]
    omega
  · intro ht
    have hnear := t.pastWords_near_kept
    rwa [ht.pastWords_eq] at hnear

theorem kept_mono (hu : u.Fits) (h : t.nanoseconds ≤ u.nanoseconds) :
    t.kept.nanoseconds ≤ u.kept.nanoseconds := by
  rw [kept_nanoseconds, kept_nanoseconds, hu.pastWords_eq]
  exact Nat.mul_le_mul_right _ (Nat.div_le_div_right (Nat.le_trans t.pastWords_le h))

end Span

namespace Settings

structure Keeps (write : Settings → Span → Settings) (read : Settings → Span) (s : Settings)
    (t : Span) : Prop where
  le : (read (write s t)).nanoseconds ≤ t.nanoseconds
  /-- Up to a millisecond, but for whole words of milliseconds. -/
  near : t.pastWords.Near (read (write s t))
  near_iff : t.Near (read (write s t)) ↔ t.Fits
  mono (s' : Settings) (u : Span) : u.Fits → t.nanoseconds ≤ u.nanoseconds →
    (read (write s t)).nanoseconds ≤ (read (write s' u)).nanoseconds

theorem Keeps.of_kept {write : Settings → Span → Settings} {read : Settings → Span}
    (h : ∀ s t, read (write s t) = t.kept) (s : Settings) (t : Span) : Keeps write read s t where
  le := by
    rw [h]
    exact t.kept_le
  near := by
    rw [h]
    exact t.pastWords_near_kept
  near_iff := by
    rw [h]
    exact Span.near_kept_iff
  mono s' u hu htu := by
    rw [h, h]
    exact Span.kept_mono hu htu

/-- Both waits are kept up to a millisecond where they fit in a word of milliseconds, and only
there; the other settings stay as they are. -/
theorem waits_kept (s : Settings) (t : Span) :
    Keeps withLockTimeout lockTimeout s t ∧ Keeps withShutdownGrace shutdownGrace s t ∧
      { s.withLockTimeout t with lockTimeoutMilliseconds := s.lockTimeoutMilliseconds } = s ∧
      { s.withShutdownGrace t with
        shutdownGraceMilliseconds := s.shutdownGraceMilliseconds } = s := by
  refine ⟨?_, ?_, rfl, rfl⟩
  · apply Keeps.of_kept
    intro s t
    rfl
  · apply Keeps.of_kept
    intro s t
    rfl

example : (withLockTimeout {} (.ofParts 2 1999999)).lockTimeout = .ofMilliseconds 2001 := by decide

/-- A wait of more milliseconds than fit in a word becomes shorter than one of a second. -/
theorem waits_kept_fails_past_word :
    (Span.ofParts 1 0).nanoseconds < (Span.ofParts 18446744073709552 0).nanoseconds ∧
    ¬ (Span.ofParts 18446744073709552 0).Near
      (withLockTimeout {} (.ofParts 18446744073709552 0)).lockTimeout ∧
    (withLockTimeout {} (.ofParts 18446744073709552 0)).lockTimeout = .ofMilliseconds 384 ∧
    (withLockTimeout {} (.ofParts 1 0)).lockTimeout = .ofMilliseconds 1000 ∧
    ¬ (Span.ofParts 18446744073709552 0).Near
      (withShutdownGrace {} (.ofParts 18446744073709552 0)).shutdownGrace ∧
    (withShutdownGrace {} (.ofParts 18446744073709552 0)).shutdownGrace = .ofMilliseconds 384 ∧
    (withShutdownGrace {} (.ofParts 1 0)).shutdownGrace = .ofMilliseconds 1000 := by
  unfold Span.Near
  decide

end Settings

end CommandLog
