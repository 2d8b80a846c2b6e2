import Mathlib.Data.List.Basic
import CommandLog.Hub.Resources

/-! # What the file of a transcript holds

A transcript that was just created is an empty file under its path. Every record written to it comes
at the end of those before, and the path keeps leading to the file.
-/

namespace CommandLog

namespace FileTree

variable {t t' : FileTree} {full name dir dir' parts : List String} {e : Entry} {p : Path}
  {old bs : Bytes}

/-- The bytes of every file are there. -/
def Sound (t : FileTree) : Prop :=
  ∀ name n, t.lookup name = some (.file n) → n < t.contents.length

theorem sound_standard : standard.Sound := by
  intro name n h
  unfold lookup at h
  split at h
  case isTrue => cases h
  case isFalse =>
    obtain ⟨before, after, he, -⟩ := List.lookup_eq_some_iff.mp h
    have hm : (name, Entry.file n) ∈ standard.entries := by simp [he]
    simp [standard] at hm

theorem lookup_add (hf : full ≠ []) (t : FileTree) (e : Entry) (name : List String) :
    (t.add full e).lookup name = if name = full then some e else t.lookup name := by
  unfold lookup add
  by_cases hn : name = full
  · subst hn
    simp [hf]
  · have hb : (name == full) = false := beq_eq_false_iff_ne.mpr hn
    simp [hn, List.lookup_cons, hb]

/-- A walk leads through directories only, so it goes the same way as long as they are there. -/
theorem walk_of_directories (hw : t.walk dir parts = .ok dir')
    (hd : ∀ name, t.lookup name = some .directory → t'.lookup name = some .directory) :
    t'.walk dir parts = .ok dir' := by
  induction parts generalizing dir with
  | nil => exact hw
  | cons part rest ih =>
    rw [walk] at hw ⊢
    split at hw
    case isTrue hp => rw [if_pos hp]; exact ih hw
    case isFalse hp =>
      rw [if_neg hp]
      split at hw
      case isTrue hu => rw [if_pos hu]; exact ih hw
      case isFalse hu =>
        rw [if_neg hu]
        split at hw
        case isTrue => cases hw
        case isFalse hl =>
          rw [if_neg hl]
          split at hw
          case h_1 he =>
            rw [hd _ he]
            exact ih hw
          case h_2 => cases hw
          case h_3 => cases hw

theorem walk_contents (t : FileTree) (contents : List Bytes) (dir parts : List String) :
    ({ t with contents := contents } : FileTree).walk dir parts = t.walk dir parts := by
  induction parts generalizing dir with
  | nil => rfl
  | cons part rest ih =>
    have hl : ∀ name, ({ t with contents := contents } : FileTree).lookup name = t.lookup name :=
      fun _ => rfl
    rw [walk, walk, ih, ih, ih, hl]

theorem goal_contents (t : FileTree) (contents : List Bytes) (p : Path) :
    ({ t with contents := contents } : FileTree).goal p = t.goal p := by
  unfold goal
  simp only [walk_contents]

theorem entry_contents (t : FileTree) (contents : List Bytes) (p : Path) :
    ({ t with contents := contents } : FileTree).entry p = t.entry p := by
  unfold entry
  rw [goal_contents]
  rfl

theorem goal_of_directories (hg : t.goal p = .ok (.name full)) (hh : t'.here = t.here)
    (hd : ∀ name, t.lookup name = some .directory → t'.lookup name = some .directory) :
    t'.goal p = .ok (.name full) := by
  unfold goal at hg ⊢
  split at hg
  case h_1 => cases hg
  case h_2 =>
    dsimp only at hg ⊢
    rw [hh]
    split at hg
    case h_1 => cases hg
    case h_2 last _ =>
      split at hg
      case h_1 => cases hg
      case h_2 dir hw =>
        rw [walk_of_directories hw hd]
        exact hg

theorem goal_add (hg : t.goal p = .ok (.name full)) (hn : t.lookup full = none) (e : Entry) :
    (t.add full e).goal p = .ok (.name full) := by
  refine goal_of_directories hg rfl fun name hd => ?_
  have hf : full ≠ [] := by
    rintro rfl
    cases hn
  have hne : name ≠ full := by
    rintro rfl
    cases hn.symm.trans hd
  rw [lookup_add hf, if_neg hne, hd]

theorem lookup_filter_of_ne (hne : name ≠ full) (entries : List (List String × Entry)) :
    (entries.filter (·.1 ≠ full)).lookup name = entries.lookup name := by
  induction entries with
  | nil => rfl
  | cons x rest ih =>
    by_cases hx : x.1 = full
    · have hb : (name == x.1) = false := beq_eq_false_iff_ne.mpr (hx ▸ hne)
      rw [List.filter_cons_of_neg (by simpa using hx), ih, List.lookup_cons, hb]
    · rw [List.filter_cons_of_pos (by simpa using hx), List.lookup_cons, List.lookup_cons, ih]

theorem lookup_unlink_of_ne (hne : name ≠ full) (t : FileTree) :
    (t.unlink full).lookup name = t.lookup name := by
  unfold lookup unlink
  rw [lookup_filter_of_ne hne]

theorem lookup_unlink_self (hf : full ≠ []) (t : FileTree) :
    (t.unlink full).lookup full = none := by
  unfold lookup unlink
  rw [if_neg hf, List.lookup_eq_none_iff]
  intro x hx
  have hne : x.1 ≠ full := by simpa using (List.mem_filter.mp hx).2
  exact bne_iff_ne.mpr hne.symm

theorem goal_unlink (hg : t.goal p = .ok (.name full)) (hn : t.lookup full ≠ some .directory) :
    (t.unlink full).goal p = .ok (.name full) := by
  refine goal_of_directories hg rfl fun name hd => ?_
  have hne : name ≠ full := by
    rintro rfl
    exact hn hd
  rw [lookup_unlink_of_ne hne, hd]

theorem entry_remove (hr : t.remove p = .ok t') : t'.entry p = .error (.os Errno.noSuchEntry) := by
  unfold remove at hr
  split at hr
  case h_1 => cases hr
  case h_2 => cases hr
  case h_3 full hg =>
    split at hr
    case h_1 => cases hr
    case h_2 => cases hr
    case h_3 e hd hl =>
      split at hr
      case isTrue => cases hr
      case isFalse =>
        obtain rfl := Except.ok.inj hr
        have hn : t.lookup full ≠ some .directory := by
          intro he
          exact hd (Option.some.inj (hl.symm.trans he))
        have hfull : full ≠ [] := by
          rintro rfl
          exact hn rfl
        rw [entry, goal_unlink hg hn]
        simp [lookup_unlink_self hfull]

theorem sound_add (h : t.Sound) (hf : full ≠ []) : (t.add full .directory).Sound := by
  intro name n hn
  rw [lookup_add hf] at hn
  split at hn
  · cases hn
  · exact h name n hn

theorem sound_makeDirectory (h : t.Sound) (hm : t.makeDirectory p = .ok t') : t'.Sound := by
  unfold makeDirectory at hm
  split at hm
  case h_1 => cases hm
  case h_2 => cases hm
  case h_3 full _ =>
    split at hm
    case h_1 => cases hm
    case h_2 hn =>
      obtain rfl := Except.ok.inj hm
      refine sound_add h ?_
      rintro rfl
      cases hn

theorem sound_makeDirectoriesWithin (h : t.Sound) (depth : Nat) (p : Path) :
    (makeDirectoriesWithin depth t p).2.Sound := by
  induction depth generalizing t p with
  | zero => exact h
  | succ depth ih =>
    rw [makeDirectoriesWithin]
    split
    case isTrue => exact h
    case isFalse =>
      split
      case h_1 hm => exact sound_makeDirectory h hm
      case h_2 =>
        split
        case isTrue =>
          split
          case h_1 => exact h
          case h_2 above _ =>
            have ha := ih h above
            split
            case h_1 hd => exact hd ▸ ha
            case h_2 hd =>
              rw [hd] at ha
              split
              case h_1 hm => exact sound_makeDirectory ha hm
              case h_2 => exact ha
        case isFalse => exact h

theorem create_empty (h : t.Sound) {f : OpenFile} (hc : t.create p = .ok (f, t')) {n : Nat}
    (hf : f.entry = .file n) :
    t'.entry p = .ok (.file n) ∧ t'.contents[n]? = some [] ∧ f.position = 0 := by
  unfold create at hc
  split at hc
  case h_1 => cases hc
  case h_2 => cases hc
  case h_3 full hg =>
    split at hc
    case isTrue => cases hc
    case isFalse hslash =>
      split at hc
      case h_1 => cases hc
      case h_2 m hl =>
        obtain ⟨rfl, rfl⟩ := Prod.mk.inj (Except.ok.inj hc)
        obtain rfl := Entry.file.inj hf
        refine ⟨?_, by simp [h _ _ hl], rfl⟩
        rw [entry_contents, entry, hg]
        simp [hl, hslash]
      case h_3 =>
        obtain ⟨rfl, rfl⟩ := Prod.mk.inj (Except.ok.inj hc)
        cases hf
      case h_4 hl =>
        obtain ⟨rfl, rfl⟩ := Prod.mk.inj (Except.ok.inj hc)
        obtain rfl := Entry.file.inj hf
        refine ⟨?_, by simp, rfl⟩
        have hfull : full ≠ [] := by
          rintro rfl
          cases hl
        rw [entry_contents, entry, goal_add hg hl]
        simp [lookup_add hfull, hslash]

theorem overwrite_length (old bs : Bytes) : overwrite old old.length bs = old ++ bs := by
  unfold overwrite
  split
  case isTrue h => rw [h, List.append_nil]
  case isFalse => simp

end FileTree

namespace Transcript

variable {t t' : FileTree} {tr : Transcript} {path : Path} {bs : Bytes}

/-- The path of the transcript leads to a regular file with the given bytes, and the next record
goes to their end. -/
structure Holds (tr : Transcript) (t : FileTree) (bs : Bytes) : Prop where
  entry : t.entry tr.path = .ok tr.file.entry
  contents : ∃ n, tr.file.entry = .file n ∧ t.contents[n]? = some bs
  position : tr.file.position = bs.length

theorem Holds.read (h : tr.Holds t bs) : t.read tr.path = .ok bs := by
  obtain ⟨n, hn, hc⟩ := h.contents
  rw [FileTree.read, h.entry, hn]
  simp [hc]

/-- A transcript that was just created holds nothing, unless it is a special file. -/
theorem create_holds (h : t.Sound) (hc : create t path = (.ok tr, t'))
    (hf : ∃ n, tr.file.entry = .file n) : tr.Holds t' [] := by
  obtain ⟨n, hn⟩ := hf
  unfold create at hc
  split at hc
  case h_1 => cases hc
  case h_2 t₁ hd =>
    have hs : t₁.Sound := by
      unfold prepare at hd
      split at hd
      case h_1 above _ =>
        have hm := FileTree.sound_makeDirectoriesWithin h (above.components.length + 2) above
        rw [FileTree.makeDirectories] at hd
        rwa [hd] at hm
      case h_2 =>
        obtain ⟨-, rfl⟩ := Prod.mk.inj hd
        exact h
    split at hc
    case h_1 => cases hc
    case h_2 file t₂ hcreate =>
      obtain ⟨hok, rfl⟩ := Prod.mk.inj hc
      obtain rfl := Except.ok.inj hok
      obtain ⟨hentry, hcontents, hposition⟩ := FileTree.create_empty hs hcreate hn
      exact ⟨hn ▸ hentry, ⟨n, hn, hcontents⟩, hposition⟩

theorem Holds.append (h : tr.Holds t bs) (r : Record) :
    ∃ tr' t', tr.append t r = .ok (tr', t') ∧ tr'.Holds t' (bs ++ r.bytes) := by
  obtain ⟨n, hn, hc⟩ := h.contents
  obtain ⟨path, entry, position⟩ := tr
  obtain rfl : entry = .file n := hn
  obtain rfl : position = bs.length := h.position
  refine ⟨_, _, rfl, ?_, ⟨n, rfl, ?_⟩, ?_⟩
  · rw [FileTree.entry_contents]
    exact h.entry
  · simp [hc, FileTree.overwrite_length]
  · rw [List.length_append]

theorem entry_remove (h : tr.remove t = .ok t') :
    t'.entry tr.path = .error (.os Errno.noSuchEntry) := by
  unfold remove at h
  split at h
  case h_1 => cases h
  case h_2 =>
    split at h
    case h_1 => cases h
    case h_2 hr =>
      obtain rfl := Except.ok.inj h
      exact FileTree.entry_remove hr

end Transcript

namespace Resources

variable {r r' : Resources} {bs : Bytes}

def file (r : Resources) : Option Transcript × FileTree :=
  (r.transcript, r.tree)

/-- There is a transcript, and its file holds the given bytes. -/
def Transcribed (r : Resources) (bs : Bytes) : Prop :=
  ∃ tr, r.transcript = some tr ∧ tr.Holds r.tree bs

theorem Transcribed.transcriptBytes (h : r.Transcribed bs) : r.transcriptBytes = some bs := by
  obtain ⟨tr, htr, h⟩ := h
  rw [Resources.transcriptBytes, htr]
  simp [h.read, Except.toOption]

theorem Transcribed.congr (h : r.Transcribed bs) (hf : r'.file = r.file) : r'.Transcribed bs := by
  obtain ⟨htranscript, htree⟩ := Prod.mk.inj hf
  obtain ⟨tr, htr, h⟩ := h
  exact ⟨tr, htranscript.trans htr, htree ▸ h⟩

theorem Transcribed.transcribe (h : r.Transcribed bs) (record : Record) :
    (r.transcribe record).Transcribed (bs ++ record.bytes) := by
  obtain ⟨tr, htr, h⟩ := h
  obtain ⟨tr', t', ha, h'⟩ := h.append record
  exact ⟨tr', by simp [Resources.transcribe, htr, ha], by simpa [Resources.transcribe, htr, ha]⟩

end Resources

end CommandLog
