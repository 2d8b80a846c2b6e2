import CommandLog.Proofs.Transcript.File
import CommandLog.Proofs.Transcript.Parent

/-! # What opening a transcript does to its file

A file that was there is emptied, for nothing has to be made above it; one that was not is made
empty. A transcript that cannot be opened has no file under its path, neither before nor after.
-/

namespace CommandLog

namespace FileTree

variable {t t' : FileTree} {p q : Path} {x : Entry × Bytes} {e : IoError}

/-- The file that a path leads to, with its bytes; a directory is none. -/
def file? (t : FileTree) (p : Path) : Option (Entry × Bytes) :=
  match t.entry p with
  | .ok (.file n) => some (.file n, t.contents.getD n [])
  | .ok (.special kind) => some (.special kind, [])
  | _ => none

theorem exists_of_file? (h : t.file? p = some x) : ∃ full, t.goal p = .ok (.name full) ∧
    p.endsWithSlash = false ∧ t.lookup full = some x.1 ∧ x.1 ≠ .directory := by
  have he : t.entry p = .ok x.1 ∧ x.1 ≠ .directory := by
    unfold file? at h
    split at h
    case h_1 he =>
      obtain rfl := Option.some.inj h
      exact ⟨he, nofun⟩
    case h_2 he =>
      obtain rfl := Option.some.inj h
      exact ⟨he, nofun⟩
    case h_3 => cases h
  obtain ⟨he, hd⟩ := he
  unfold entry at he
  split at he
  case h_1 => cases he
  case h_2 => exact absurd (Except.ok.inj he).symm hd
  case h_3 full hg =>
    split at he
    case h_1 => cases he
    case h_2 => exact absurd (Except.ok.inj he).symm hd
    case h_3 hl =>
      split at he
      case isTrue => cases he
      case isFalse hs =>
        obtain rfl := Except.ok.inj he
        exact ⟨full, hg, Bool.eq_false_iff.mpr hs, hl, hd⟩

theorem create_of_file? (h : t.file? p = some x) :
    ∃ f t', t.create p = .ok (f, t') ∧ f.entry = x.1 := by
  obtain ⟨full, hg, hs, hl, hd⟩ := exists_of_file? h
  rw [create, hg]
  dsimp only
  rw [if_neg (by simp [hs]), hl]
  match hx : x.1 with
  | .directory => exact absurd hx hd
  | .file n => exact ⟨_, _, rfl, rfl⟩
  | .special kind => exact ⟨_, _, rfl, rfl⟩

theorem entry_of_lookup {full : List String} {e : Entry} (hg : t.goal p = .ok (.name full))
    (hs : p.endsWithSlash = false) (hl : t.lookup full = some e) : t.entry p = .ok e := by
  cases e <;> simp [entry, hg, hl, hs]

theorem file?_create {f : OpenFile} (h : t.create p = .ok (f, t')) :
    t'.file? p = some (f.entry, []) := by
  unfold create at h
  split at h
  case h_1 => cases h
  case h_2 => cases h
  case h_3 full hg =>
    split at h
    case isTrue => cases h
    case isFalse hslash =>
      have hs := Bool.eq_false_iff.mpr hslash
      split at h
      case h_1 => cases h
      case h_2 n hl =>
        obtain ⟨rfl, rfl⟩ := Prod.mk.inj (Except.ok.inj h)
        have he : ({ t with contents := t.contents.set n [] } : FileTree).entry p = .ok (.file n) :=
          (entry_contents t _ p).trans (entry_of_lookup hg hs hl)
        rw [file?, he]
        simp only [List.getD_eq_getElem?_getD, List.getElem?_set_self']
        cases t.contents[n]? <;> rfl
      case h_3 kind hl =>
        obtain ⟨rfl, rfl⟩ := Prod.mk.inj (Except.ok.inj h)
        rw [file?, entry_of_lookup hg hs hl]
      case h_4 hl =>
        obtain ⟨rfl, rfl⟩ := Prod.mk.inj (Except.ok.inj h)
        have hfull : full ≠ [] := by
          rintro rfl
          cases hl
        have he : (t.add full (.file t.contents.length)).entry p = .ok (.file t.contents.length) :=
          entry_of_lookup (goal_add hg hl _) hs (by rw [lookup_add hfull, if_pos rfl])
        rw [file?, entry_contents, he]
        simp

theorem file?_of_create_error (h : t.create p = .error e) : t.file? p = none := by
  by_contra hx
  obtain ⟨x, hx⟩ := Option.ne_none_iff_exists'.mp hx
  obtain ⟨f, t', hc, -⟩ := create_of_file? hx
  cases hc.symm.trans h

theorem goal_of_isDirectory (h : t.isDirectory p = true) :
    t.goal p = .ok .directory ∨
      ∃ full, t.goal p = .ok (.name full) ∧ t.lookup full = some .directory := by
  have he : t.entry p = .ok .directory := by
    unfold isDirectory at h
    split at h
    case h_1 he => exact he
    case h_2 => cases h
  unfold entry at he
  split at he
  case h_1 => cases he
  case h_2 hg => exact .inl hg
  case h_3 full hg =>
    split at he
    case h_1 => cases he
    case h_2 hl => exact .inr ⟨full, hg, hl⟩
    case h_3 hd hl =>
      split at he
      case isTrue => cases he
      case isFalse => exact absurd (Except.ok.inj he) hd

theorem isDirectory_parent_of_isDirectory (h : t.isDirectory p = true) (hq : p.parent? = some q)
    (hne : q.text ≠ "") : t.isDirectory q = true := by
  obtain hg | ⟨full, hg, -⟩ := goal_of_isDirectory h
  · exact isDirectory_parent hg hq hne
  · exact isDirectory_parent hg hq hne

theorem makeDirectory_of_isDirectory (h : t.isDirectory p = true) :
    t.makeDirectory p = .error (.os Errno.alreadyExists) := by
  obtain hg | ⟨full, hg, hl⟩ := goal_of_isDirectory h
  · rw [makeDirectory, hg]
  · simp [makeDirectory, hg, hl]

theorem makeDirectories_of_isDirectory (h : t.isDirectory p = true) :
    t.makeDirectories p = (.ok (), t) := by
  rw [makeDirectories, makeDirectoriesWithin]
  split
  case isTrue => rfl
  case isFalse =>
    rw [makeDirectory_of_isDirectory h]
    dsimp only
    rw [if_neg (by decide)]

/-- When directories cannot be made, the last of them is missing. -/
theorem isDirectory_of_makeDirectoriesWithin_error {depth : Nat}
    (hd : p.components.length < depth) (h : makeDirectoriesWithin depth t p = (.error e, t')) :
    p.text ≠ "" ∧ t'.isDirectory p = false := by
  -- The levels do not run out, since a parent has fewer components.
  induction depth generalizing t p e t' with
  | zero => cases hd
  | succ depth ih =>
    rw [makeDirectoriesWithin] at h
    split at h
    case isTrue => cases h
    case isFalse htext =>
      refine ⟨by simpa using htext, ?_⟩
      split at h
      case h_1 => cases h
      case h_2 e' hm =>
        split at h
        case isTrue he =>
          subst he
          split at h
          case h_1 =>
            obtain ⟨-, rfl⟩ := Prod.mk.inj h
            refine Bool.eq_false_iff.mpr fun ht => ?_
            cases (makeDirectory_of_isDirectory ht).symm.trans hm
          case h_2 above hp =>
            have hl := Path.length_components_parent hp
            split at h
            case h_1 e'' t₁ ha =>
              obtain ⟨-, rfl⟩ := Prod.mk.inj h
              obtain ⟨hne, hf⟩ := ih (by omega) ha
              refine Bool.eq_false_iff.mpr fun ht => ?_
              cases hf.symm.trans (isDirectory_parent_of_isDirectory ht hp hne)
            case h_2 t₁ ha =>
              split at h
              case h_1 => cases h
              case h_2 =>
                obtain ⟨hr, rfl⟩ := Prod.mk.inj h
                split at hr
                case isTrue => cases hr
                case isFalse hf => exact Bool.eq_false_iff.mpr hf
        case isFalse =>
          obtain ⟨hr, rfl⟩ := Prod.mk.inj h
          split at hr
          case isTrue => cases hr
          case isFalse hf => exact Bool.eq_false_iff.mpr hf

end FileTree

namespace Transcript

variable {t t' : FileTree} {tr : Transcript} {path : Path} {x : FileTree.Entry × Bytes}

theorem prepare_of_file? (h : t.file? path = some x) : prepare t path = (.ok (), t) := by
  obtain ⟨full, hg, -⟩ := FileTree.exists_of_file? h
  unfold prepare
  split
  case h_1 above hp =>
    by_cases hne : above.text = ""
    · rw [FileTree.makeDirectories, FileTree.makeDirectoriesWithin, if_pos (by simp [hne])]
    · exact FileTree.makeDirectories_of_isDirectory (FileTree.isDirectory_parent hg hp hne)
  case h_2 => rfl

theorem file?_of_prepare_error {e : IoError} (h : prepare t path = (.error e, t')) :
    t'.file? path = none := by
  by_contra hx
  obtain ⟨x, hx⟩ := Option.ne_none_iff_exists'.mp hx
  obtain ⟨full, hg, -⟩ := FileTree.exists_of_file? hx
  unfold prepare at h
  split at h
  case h_1 above hp =>
    obtain ⟨hne, hf⟩ := FileTree.isDirectory_of_makeDirectoriesWithin_error (by omega) h
    cases hf.symm.trans (FileTree.isDirectory_parent hg hp hne)
  case h_2 => cases h

theorem create_of_file? (h : t.file? path = some x) :
    ∃ tr t', create t path = (.ok tr, t') ∧ tr.file.entry = x.1 := by
  obtain ⟨file, t', hc, hf⟩ := FileTree.create_of_file? h
  exact ⟨⟨path, file⟩, t', by rw [create, prepare_of_file? h]; simp only [hc], hf⟩

theorem file?_of_create_error {e : ServiceError} (h : create t path = (.error e, t')) :
    t.file? path = none ∧ t'.file? path = none := by
  constructor
  · by_contra hx
    obtain ⟨x, hx⟩ := Option.ne_none_iff_exists'.mp hx
    obtain ⟨tr, t₁, hc, -⟩ := create_of_file? hx
    cases hc.symm.trans h
  · unfold create at h
    split at h
    case h_1 hprepare =>
      obtain ⟨-, rfl⟩ := Prod.mk.inj h
      exact file?_of_prepare_error hprepare
    case h_2 =>
      split at h
      case h_1 hc =>
        obtain ⟨-, rfl⟩ := Prod.mk.inj h
        exact FileTree.file?_of_create_error hc
      case h_2 => cases h

/-- A transcript that was opened has an empty file, the one that was there before if there was
one. -/
theorem file?_of_create (h : create t path = (.ok tr, t')) :
    t'.file? path = some (tr.file.entry, []) ∧
      ∀ x, t.file? path = some x → x.1 = tr.file.entry := by
  constructor
  · unfold create at h
    split at h
    case h_1 => cases h
    case h_2 =>
      split at h
      case h_1 => cases h
      case h_2 file t₂ hc =>
        obtain ⟨hok, rfl⟩ := Prod.mk.inj h
        obtain rfl := Except.ok.inj hok
        exact FileTree.file?_create hc
  · intro x hx
    obtain ⟨tr', t₁, hc, hf⟩ := create_of_file? hx
    obtain ⟨hok, -⟩ := Prod.mk.inj (hc.symm.trans h)
    obtain rfl := Except.ok.inj hok
    exact hf.symm

end Transcript

end CommandLog
