import CommandLog.Directive
import CommandLog.Proofs.Decimal
import CommandLog.Proofs.Framing.Lines
import CommandLog.Proofs.Framing.Reader

/-! # The spelling of directives

A record is read as a directive exactly if it spells one: the header, two numerals parted by a comma
and a newline. A directive has many spellings, since numerals may begin with zeros. The line that is
written for it is the shortest, and it comes out of a reader in one piece.
-/

namespace CommandLog

namespace Directive

open Decimal

variable {bs r i o : Bytes} {d d' : Directive}

/-- A record spells a directive with a numeral for the index and one for the offset. -/
structure Spells (r i o : Bytes) (d : Directive) : Prop where
  form : r = header ++ i ++ comma :: o ++ [newline]
  index : Denotes i d.index.toNat
  offset : Denotes o d.offset.toNat

theorem field?_eq_some_iff {u : UInt32} : field? bs = some u ↔ Denotes bs u.toNat := by
  rw [← ofBytes?_eq_some_iff, field?]
  cases ofBytes? bs with
  | none => simp
  | some n =>
    simp only [Option.some.injEq]
    split
    case isTrue hn =>
      rw [Option.some.injEq]
      constructor
      · rintro rfl
        exact (UInt32.toNat_ofNat_of_lt' hn).symm
      · rintro rfl
        exact UInt32.ofNat_toNat
    case isFalse hn =>
      refine ⟨nofun, ?_⟩
      rintro rfl
      exact absurd u.toNat_lt_size hn

theorem comma_not_mem {n : Nat} (h : Denotes bs n) : comma ∉ bs :=
  h.not_mem rfl

theorem ofFields?_eq_some_iff : ofFields? bs = some d ↔
    ∃ i o, bs = i ++ comma :: o ∧ Denotes i d.index.toNat ∧ Denotes o d.offset.toNat := by
  constructor
  · intro h
    unfold ofFields? at h
    split at h
    case h_1 b o hb =>
      obtain ⟨index, hi, h⟩ := Option.bind_eq_some_iff.mp h
      obtain ⟨offset, ho, h⟩ := Option.bind_eq_some_iff.mp h
      obtain rfl := Option.some.inj h
      refine ⟨_, o, ?_, field?_eq_some_iff.mp hi, field?_eq_some_iff.mp ho⟩
      have hhead := List.head?_dropWhile_not (· != comma) bs
      rw [hb, List.head?_cons] at hhead
      obtain rfl : b = comma := by simpa using hhead
      rw [← hb, List.takeWhile_append_dropWhile]
    case h_2 => cases h
  · rintro ⟨i, o, rfl, hi, ho⟩
    have hcomma : ∀ b ∈ i, (b != comma) = true := fun b hb =>
      bne_iff_ne.mpr fun he => comma_not_mem hi (he ▸ hb)
    have htake : (i ++ comma :: o).takeWhile (· != comma) = i := by
      rw [List.takeWhile_append_of_pos hcomma]
      simp
    have hdrop : (i ++ comma :: o).dropWhile (· != comma) = comma :: o := by
      rw [List.dropWhile_append_of_pos hcomma]
      simp
    rw [ofFields?, hdrop]
    dsimp only
    rw [htake, field?_eq_some_iff.mpr hi, field?_eq_some_iff.mpr ho]
    rfl

theorem Spells.le_length (h : Spells r i o d) : header.length + leastTail ≤ r.length := by
  have hi := List.length_pos_iff.mpr h.index.ne_nil
  have ho := List.length_pos_iff.mpr h.offset.ne_nil
  rw [h.form, leastTail]
  simp only [List.length_append, List.length_cons]
  omega

theorem parse?_eq_some_iff : parse? r = some d ↔ ∃ i o, Spells r i o d := by
  unfold parse?
  constructor
  · intro h
    split at h
    case isTrue => cases h
    case isFalse =>
      split at h
      case isTrue hlast =>
        obtain ⟨tail, htail, h⟩ := Option.bind_eq_some_iff.mp h
        obtain ⟨i, o, rfl, hi, ho⟩ := ofFields?_eq_some_iff.mp h
        refine ⟨i, o, ?_, hi, ho⟩
        rw [List.append_assoc header, List.isPrefixOf?_eq_some_iff_append_eq.mp htail]
        exact (List.dropLast_append_getLast? _ hlast).symm
      case isFalse => cases h
  · rintro ⟨i, o, h⟩
    have hlast : r.getLast? = some newline := by rw [h.form, List.getLast?_concat]
    have hbody : r.dropLast = header ++ (i ++ comma :: o) := by
      rw [h.form, List.dropLast_concat, List.append_assoc]
    rw [if_neg (Nat.not_lt.mpr h.le_length), if_pos hlast, hbody,
      List.isPrefixOf?_eq_some_iff_append_eq.mpr rfl]
    exact ofFields?_eq_some_iff.mpr ⟨i, o, rfl, h.index, h.offset⟩

/-- A record is read as the directive that it spells, whatever zeros its numerals begin with; every
other record is to be stored unchanged. -/
theorem spells_iff_parse?_and_ofRecord (r : Bytes) :
    (∀ d, parse? r = some d ↔ ∃ i o, Spells r i o d) ∧
      (∀ d, Command.ofRecord ⟨r⟩ = .seek d ↔ ∃ i o, Spells r i o d) ∧
      ((∀ d i o, ¬ Spells r i o d) → Command.ofRecord ⟨r⟩ = .append ⟨r⟩) ∧
      ∀ d i o, Spells r i o d → header.length + leastTail ≤ r.length := by
  refine ⟨fun d => parse?_eq_some_iff, fun d => ?_, fun h => ?_, fun d i o => Spells.le_length⟩
  · rw [← parse?_eq_some_iff, Command.ofRecord]
    cases parse? r <;> simp
  · have hnone : parse? r = none := by
      refine Option.eq_none_iff_forall_ne_some.mpr fun d hd => ?_
      obtain ⟨i, o, hs⟩ := parse?_eq_some_iff.mp hd
      exact h d i o hs
    rw [Command.ofRecord, hnone]

theorem spells_line (d : Directive) :
    Spells d.line (bytes d.index.toNat) (bytes d.offset.toNat) d :=
  ⟨rfl, denotes_bytes _, denotes_bytes _⟩

theorem newline_not_mem_body (d : Directive) : newline ∉ d.body := by
  have hheader : newline ∉ header := by decide
  have hindex : newline ∉ bytes d.index.toNat := (denotes_bytes _).not_mem rfl
  have hoffset : newline ∉ bytes d.offset.toNat := (denotes_bytes _).not_mem rfl
  have hcomma : newline ≠ comma := by decide
  simp [body, hheader, hindex, hoffset, hcomma]

theorem isLine_line (d : Directive) : d.line.IsLine :=
  ⟨d.body, d.newline_not_mem_body, rfl⟩

/-- The line of a directive is a spelling of it with canonical numerals. -/
theorem Spells.line_eq_iff (h : Spells r i o d) : d.line = r ↔ Canonical i ∧ Canonical o := by
  have hi : comma ∉ bytes d.index.toNat := comma_not_mem (denotes_bytes _)
  have ho : comma ∉ bytes d.offset.toNat := comma_not_mem (denotes_bytes _)
  rw [← h.index.bytes_eq_iff, ← h.offset.bytes_eq_iff, h.form, d.spells_line.form,
    List.append_left_inj, List.append_assoc, List.append_assoc, List.append_right_inj,
    List.append_cons_inj_of_notMem hi ho, eq_self, true_and]

theorem Spells.length_line_le (h : Spells r i o d) : d.line.length ≤ r.length := by
  have hi := h.index.length_bytes_le
  have ho := h.offset.length_bytes_le
  rw [h.form, d.spells_line.form]
  simp only [List.length_append, List.length_cons]
  omega

theorem length_body_le (d : Directive) : d.body.length ≤ 40 := by
  have hbytes (u : UInt32) : (bytes u.toNat).length ≤ 10 := by
    rw [bytes, List.length_map]
    exact length_digits_le_of_lt (by decide) (Nat.lt_trans u.toNat_lt (by decide))
  have hi := hbytes d.index
  have ho := hbytes d.offset
  have hh : header.length = 19 := by decide
  simp only [body, List.length_append, List.length_cons, hh]
  omega

theorem readRecord_line {w : Wire} {t : Bytes} {initial : Nat} {limit : Option Nat} (d : Directive)
    (hw : w.Delivers (d.line ++ t)) (hi : initial ≤ LineReader.greatestCapacity)
    (hl : ∀ m ∈ limit, d.line.length ≤ m) :
    ((LineReader.ofInitial initial limit).readRecord w).result = some (.ok ⟨d.line, true⟩) := by
  have hfirst : Bytes.firstLine? (d.line ++ t) = some (d.line, t) :=
    Bytes.firstLine?_eq_some_iff.mpr ⟨d.body, d.newline_not_mem_body, rfl, rfl⟩
  have ha : (LineReader.ofInitial initial limit).Affords (d.line ++ t) := by
    intro n hn _
    have hopening := Bytes.length_of_firstLine? hfirst
    have hline : d.line.length = d.body.length + 1 := List.length_append
    have hbody := d.length_body_le
    have hg : LineReader.greatestCapacity = 9223372036854775807 := rfl
    exact max_le (by omega) (max_le hi (by omega))
  obtain ⟨res, hres, hf⟩ := LineReader.readWithin_first (Nat.lt_add_of_pos_right Nat.two_pos)
    (LineReader.ofInitial_sound initial limit) hw ha
  obtain rfl := hf.eq_line hfirst hl
  exact hres

structure RoundTrips (d : Directive) : Prop where
  parse : parse? d.line = some d
  isLine : d.line.IsLine
  /-- A reader returns the line as one frame, however the stream is cut. -/
  framed : ∀ (w : Wire) (t : Bytes) (initial : Nat) (limit : Option Nat),
    w.Delivers (d.line ++ t) → initial ≤ LineReader.greatestCapacity →
    (∀ m ∈ limit, d.line.length ≤ m) →
    ((LineReader.ofInitial initial limit).readRecord w).result = some (.ok ⟨d.line, true⟩)
  injective : ∀ d' : Directive, d'.line = d.line → d' = d
  spelled : ∀ r, parse? r = some d → ∃ i o, Spells r i o d
  /-- Of all spellings the line is the one whose numerals have no superfluous zeros. -/
  canonical : ∀ r i o, Spells r i o d → (d.line = r ↔ Canonical i ∧ Canonical o)
  shortest : ∀ r, parse? r = some d → d.line.length ≤ r.length

/-- The line of a directive is read as that directive, and of all records that are read so it is
the canonical and shortest one. -/
theorem line_roundTrips (d : Directive) : d.RoundTrips where
  parse := parse?_eq_some_iff.mpr ⟨_, _, d.spells_line⟩
  isLine := d.isLine_line
  framed _ _ _ _ hw hi hl := d.readRecord_line hw hi hl
  injective d' h := by
    have hd : parse? d.line = some d := parse?_eq_some_iff.mpr ⟨_, _, d.spells_line⟩
    have hd' : parse? d'.line = some d' := parse?_eq_some_iff.mpr ⟨_, _, d'.spells_line⟩
    exact Option.some.inj (hd'.symm.trans (h ▸ hd))
  spelled r h := parse?_eq_some_iff.mp h
  canonical _ _ _ h := h.line_eq_iff
  shortest r h := by
    obtain ⟨i, o, hs⟩ := parse?_eq_some_iff.mp h
    exact hs.length_line_le

end Directive

end CommandLog
