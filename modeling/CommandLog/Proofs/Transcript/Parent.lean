import Mathlib.Data.String.Basic
import CommandLog.FileTree

/-! # The directory above a path

The parent of a path has the components of the path but for the last one and for dots, and starts
where the path does. So a path that leads somewhere has a parent that is a directory.
-/

namespace CommandLog

namespace Path

variable {p q : Path} {parts : List String} {part : String}

theorem pieces_eq_splitOn (cs : List Char) : pieces cs = cs.splitOn '/' := by
  induction cs with
  | nil => rfl
  | cons c cs ih =>
    rw [pieces, List.splitOn, List.splitOnP_cons_eq_if_modifyHead, ← List.splitOn, ih]
    by_cases hc : c = '/'
    · simp [hc]
    · rw [if_neg hc, if_neg (by simpa using hc)]
      match h : cs.splitOn '/' with
      | [] => exact absurd h (List.splitOn_ne_nil '/' cs)
      | _ :: _ => rfl

theorem slash_notMem_of_mem_pieces {cs piece : List Char} (h : piece ∈ pieces cs) :
    '/' ∉ piece := by
  induction cs generalizing piece with
  | nil => simp_all [pieces]
  | cons c cs ih =>
    rw [pieces] at h
    split at h
    case isTrue =>
      obtain rfl | h := List.mem_cons.mp h
      · exact List.not_mem_nil
      · exact ih h
    case isFalse hc =>
      split at h
      case h_1 =>
        obtain rfl := List.mem_singleton.mp h
        simpa using Ne.symm hc
      case h_2 first rest hp =>
        rw [hp] at ih
        obtain rfl | h := List.mem_cons.mp h
        · simpa [Ne.symm hc] using ih List.mem_cons_self
        · exact ih (List.mem_cons_of_mem _ h)

/-- Fewer pieces joined with slashes come in the order in which they stood among more. -/
theorem intercalate_sublist {l l' : List (List Char)} (h : l.Sublist l') :
    (['/'].intercalate l).Sublist (['/'].intercalate l') := by
  induction h with
  | slnil => exact .refl _
  | @cons l l' piece h ih =>
    cases l' with
    | nil => simp [List.sublist_nil.mp h]
    | cons => exact ih.trans (by simp [List.intercalate_cons_cons])
  | @cons_cons l l' piece h ih =>
    cases l' with
    | nil => simp [List.sublist_nil.mp h]
    | cons =>
      cases l with
      | nil => simp [List.intercalate_cons_cons]
      | cons => simpa [List.intercalate_cons_cons] using ih

def IsComponent (part : String) : Prop :=
  part ≠ "" ∧ '/' ∉ part.toList

theorem isComponent_of_mem (h : part ∈ p.components) : IsComponent part := by
  obtain ⟨piece, hm, rfl⟩ := List.mem_map.mp h
  obtain ⟨hm, hne⟩ := List.mem_filter.mp hm
  refine ⟨?_, by simpa using slash_notMem_of_mem_pieces hm⟩
  simpa [← String.toList_inj] using hne

theorem components_intercalate (h : ∀ part ∈ parts, IsComponent part) :
    (⟨"/".intercalate parts⟩ : Path).components = parts := by
  by_cases hp : parts = []
  · subst hp
    rfl
  · have hs : pieces ("/".intercalate parts).toList = parts.map String.toList := by
      rw [pieces_eq_splitOn, String.toList_intercalate]
      refine List.splitOn_intercalate '/' ?_ (by simpa using hp)
      intro piece hm
      obtain ⟨part, hpart, rfl⟩ := List.mem_map.mp hm
      exact (h part hpart).2
    have hf : (parts.map String.toList).filter (· ≠ []) = parts.map String.toList := by
      refine List.filter_eq_self.mpr fun piece hm => ?_
      obtain ⟨part, hpart, rfl⟩ := List.mem_map.mp hm
      simpa using (h part hpart).1
    rw [components, hs, hf, List.map_map]
    simp

theorem components_slash_append (text : String) :
    (⟨"/" ++ text⟩ : Path).components = (⟨text⟩ : Path).components := by
  simp [components, pieces]

/-- What is left of the components when dots that stand for the directory itself are left out. -/
def spine (p : Path) : List String :=
  match p.components with
  | "." :: rest => (if p.isAbsolute then [] else ["."]) ++ rest.filter (· ≠ ".")
  | parts => parts.filter (· ≠ ".")

theorem spine_sublist (p : Path) : p.spine.Sublist p.components := by
  unfold spine
  split
  case h_1 rest hp =>
    rw [hp]
    split
    · exact List.filter_sublist.cons _
    · exact List.filter_sublist.cons_cons _
  case h_2 => exact List.filter_sublist

theorem filter_spine (p : Path) :
    p.spine.filter (· ≠ ".") = p.components.filter (· ≠ ".") := by
  unfold spine
  split
  case h_1 rest hp =>
    rw [hp]
    split <;> simp
  case h_2 => simp

theorem ne_dot_of_mem_tail_spine (h : part ∈ p.spine.tail) : part ≠ "." := by
  have hf {l : List String} (hm : part ∈ l.filter (· ≠ ".")) : part ≠ "." := by
    simpa using (List.mem_filter.mp hm).2
  unfold spine at h
  split at h
  case h_1 rest _ =>
    split at h
    · exact hf (List.mem_of_mem_tail h)
    · exact hf h
  case h_2 => exact hf (List.mem_of_mem_tail h)

theorem filter_dropLast_spine (p : Path) :
    p.spine.dropLast.filter (· ≠ ".") = (p.components.filter (· ≠ ".")).dropLast := by
  rw [← filter_spine]
  -- a dot comes last only if it stands alone
  have ht : ∀ part ∈ p.spine.tail, part ≠ "." := fun _ => ne_dot_of_mem_tail_spine
  match h : p.spine with
  | [] => rfl
  | [part] => by_cases hp : part = "." <;> simp [hp]
  | part :: second :: rest =>
    have hr : (second :: rest).filter (· ≠ ".") = second :: rest :=
      List.filter_eq_self.mpr fun x hx => decide_eq_true (ht x (h ▸ hx))
    have hd : (second :: rest).dropLast.filter (· ≠ ".") = (second :: rest).dropLast :=
      List.filter_eq_self.mpr fun x hx =>
        decide_eq_true (ht x (h ▸ List.dropLast_subset _ hx))
    rw [List.dropLast_cons_of_ne_nil (List.cons_ne_nil _ _), List.filter_cons, List.filter_cons,
      hr, hd]
    split <;> rfl

theorem parent?_eq_some (h : p.parent? = some q) : p.spine ≠ [] ∧
    q.text = (if p.isAbsolute then "/" else "") ++ "/".intercalate p.spine.dropLast := by
  change (if p.spine = [] then none else
    some ⟨if p.isAbsolute then "/" ++ "/".intercalate p.spine.dropLast
      else "/".intercalate p.spine.dropLast⟩) = some q at h
  split at h
  case isTrue => cases h
  case isFalse hs =>
    obtain rfl := Option.some.inj h
    refine ⟨hs, ?_⟩
    split <;> simp

theorem components_parent (h : p.parent? = some q) : q.components = p.spine.dropLast := by
  have hc : ∀ part ∈ p.spine.dropLast, IsComponent part := fun part hm =>
    isComponent_of_mem (p.spine_sublist.subset (List.dropLast_subset _ hm))
  obtain ⟨text⟩ := q
  obtain ⟨-, rfl⟩ := parent?_eq_some h
  split
  · rw [components_slash_append, components_intercalate hc]
  · rw [String.empty_append, components_intercalate hc]

/-- But for dots, the parent has the first of the components before the last. -/
theorem components_parent_prefix (h : p.parent? = some q) :
    q.components.filter (· ≠ ".") <+: p.components.dropLast.filter (· ≠ ".") := by
  rw [components_parent h, filter_dropLast_spine]
  obtain hp | ⟨init, last, hp⟩ := p.components.eq_nil_or_concat'
  · simp [hp]
  · rw [hp, List.filter_append, List.dropLast_concat]
    by_cases hl : last = "."
    · rw [List.filter_cons_of_neg (by simpa using hl), List.filter_nil, List.append_nil]
      exact List.dropLast_prefix _
    · refine ⟨[], ?_⟩
      rw [List.filter_cons_of_pos (by simpa using hl), List.filter_nil, List.dropLast_concat,
        List.append_nil]

theorem length_components_parent (h : p.parent? = some q) :
    q.components.length < p.components.length := by
  obtain ⟨hs, -⟩ := parent?_eq_some h
  rw [components_parent h, List.length_dropLast]
  have hl := p.spine_sublist.length_le
  have hpos := List.length_pos_iff.mpr hs
  omega

theorem text_parent_sublist (h : p.parent? = some q) : q.text.toList.Sublist p.text.toList := by
  obtain ⟨-, hq⟩ := parent?_eq_some h
  have hs (cs : List Char) (hp : p.components = ((pieces cs).filter (· ≠ [])).map String.ofList) :
      ("/".intercalate p.spine.dropLast).toList.Sublist cs := by
    have hm : (p.spine.dropLast.map String.toList).Sublist (pieces cs) := by
      refine (((List.dropLast_sublist _).trans p.spine_sublist).map _).trans ?_
      simp [hp]
    simpa [pieces_eq_splitOn, List.intercalate_splitOn] using intercalate_sublist hm
  rw [hq]
  split
  case isTrue ha =>
    -- the slash at the start belongs to no component
    obtain ⟨cs, hcs⟩ : ∃ cs, p.text.toList = '/' :: cs := by
      simpa [isAbsolute, List.head?_eq_some_iff] using ha
    rw [hcs, String.toList_append]
    refine (hs cs ?_).cons_cons '/'
    simp [components, hcs, pieces]
  case isFalse =>
    rw [String.empty_append]
    exact hs _ rfl

theorem isAbsolute_parent (h : p.parent? = some q) : q.isAbsolute = p.isAbsolute := by
  obtain ⟨-, hq⟩ := parent?_eq_some h
  rw [isAbsolute, hq]
  split
  case isTrue ha => simp [ha]
  case isFalse ha =>
    rw [String.empty_append, String.toList_intercalate, Bool.eq_false_iff.mpr ha]
    match hs : p.spine.dropLast with
    | [] => rfl
    | part :: rest =>
      obtain ⟨hne, hslash⟩ : IsComponent part := isComponent_of_mem
        (p.spine_sublist.subset (List.dropLast_subset _ (hs ▸ List.mem_cons_self)))
      obtain ⟨c, cs, hc⟩ := List.exists_cons_of_ne_nil (by simpa using hne : part.toList ≠ [])
      have hc' : c ≠ '/' := by
        rintro rfl
        exact hslash (hc ▸ List.mem_cons_self)
      cases rest <;> simpa [hc, List.intercalate_cons_cons] using hc'

theorem fault?_parent (h : p.parent? = some q) (hp : p.fault? = none) (hq : q.text ≠ "") :
    q.fault? = none := by
  have hs := text_parent_sublist h
  unfold fault? at hp ⊢
  split at hp
  case isTrue => cases hp
  case isFalse hn =>
    split at hp
    case isTrue => cases hp
    case isFalse =>
      split at hp
      case isTrue => cases hp
      case isFalse hl =>
        have hn' : ¬ q.text.toList.contains '\x00' = true := by
          simp only [List.contains_iff_mem] at hn ⊢
          exact fun hm => hn (hs.subset hm)
        have hl' : ¬ longestPath < q.text.utf8ByteSize := by
          have hle := String.utf8Len_le_of_sublist hs
          rw [String.utf8Len_toList, String.utf8Len_toList] at hle
          omega
        rw [if_neg hn', if_neg (by simpa using hq), if_neg hl']

end Path

namespace FileTree

variable {t : FileTree} {p q : Path} {dir dir' parts rest : List String} {part : String} {g : Goal}

theorem walk_append_eq_ok :
    t.walk dir (parts ++ rest) = .ok dir' ↔
      ∃ mid, t.walk dir parts = .ok mid ∧ t.walk mid rest = .ok dir' := by
  induction parts generalizing dir with
  | nil => simp [walk]
  | cons part parts ih =>
    rw [List.cons_append, walk, walk]
    split
    case isTrue => exact ih
    case isFalse =>
      split
      case isTrue => exact ih
      case isFalse =>
        split
        case isTrue => simp
        case isFalse =>
          split
          case h_1 => exact ih
          case h_2 => simp
          case h_3 => simp

/-- Dots lead nowhere. -/
theorem walk_filter (t : FileTree) (dir parts : List String) :
    t.walk dir (parts.filter (· ≠ ".")) = t.walk dir parts := by
  induction parts generalizing dir with
  | nil => rfl
  | cons part rest ih =>
    by_cases hp : part = "."
    · rw [List.filter_cons_of_neg (by simpa using hp), walk, if_pos hp, ih]
    · rw [List.filter_cons_of_pos (by simpa using hp), walk, walk, ih, ih, ih]

def origin (t : FileTree) (p : Path) : List String :=
  if p.isAbsolute then [] else t.here

theorem goal_eq (t : FileTree) (hf : p.fault? = none) : t.goal p =
    match p.components.getLast? with
    | none => .ok .directory
    | some last =>
      match t.walk (t.origin p) p.components.dropLast with
      | .error e => .error e
      | .ok dir =>
        if last = "." ∨ last = ".." then .ok .directory
        else if tooLong last then .error (.os Errno.nameTooLong)
        else .ok (.name (dir ++ [last])) := by
  unfold goal
  rw [hf]
  rfl

theorem fault?_of_goal (h : t.goal p = .ok g) : p.fault? = none := by
  unfold goal at h
  split at h
  case h_1 => cases h
  case h_2 hf => exact hf

theorem exists_walk_of_goal (h : t.goal p = .ok g) :
    ∃ dir, t.walk (t.origin p) p.components.dropLast = .ok dir := by
  rw [goal_eq t (fault?_of_goal h)] at h
  split at h
  case h_1 hl =>
    rw [List.getLast?_eq_none_iff.mp hl]
    exact ⟨_, rfl⟩
  case h_2 =>
    split at h
    case h_1 => cases h
    case h_2 dir hw => exact ⟨dir, hw⟩

theorem isDirectory_of_walk (hf : p.fault? = none)
    (hw : t.walk (t.origin p) p.components = .ok dir) : t.isDirectory p = true := by
  obtain hp | ⟨init, last, hp⟩ := p.components.eq_nil_or_concat'
  · have hg : t.goal p = .ok .directory := by rw [goal_eq t hf, hp]; rfl
    rw [isDirectory, entry, hg]
  · rw [hp, walk_append_eq_ok] at hw
    obtain ⟨mid, hw, hlast⟩ := hw
    have hg : t.goal p =
        if last = "." ∨ last = ".." then .ok .directory
        else if tooLong last then .error (.os Errno.nameTooLong)
        else .ok (.name (mid ++ [last])) := by
      simp [goal_eq t hf, hp, hw]
    rw [walk] at hlast
    split at hlast
    case isTrue hdot => simp [isDirectory, entry, hg, hdot]
    case isFalse hdot =>
      split at hlast
      case isTrue hup => simp [isDirectory, entry, hg, hup]
      case isFalse hup =>
        split at hlast
        case isTrue => cases hlast
        case isFalse hlong =>
          split at hlast
          case h_1 hd => simp [isDirectory, entry, hg, hdot, hup, hlong, hd]
          case h_2 => cases hlast
          case h_3 => cases hlast

/-- What a path leads to lies in a directory, which is the parent if it has a text. -/
theorem isDirectory_parent (hg : t.goal p = .ok g) (hq : p.parent? = some q) (hne : q.text ≠ "") :
    t.isDirectory q = true := by
  obtain ⟨dir, hw⟩ := exists_walk_of_goal hg
  have ho : t.origin q = t.origin p := by rw [origin, origin, Path.isAbsolute_parent hq]
  obtain ⟨rest, hr⟩ := Path.components_parent_prefix hq
  rw [← walk_filter, ← hr, walk_append_eq_ok] at hw
  obtain ⟨mid, hw, -⟩ := hw
  rw [walk_filter, ← ho] at hw
  exact isDirectory_of_walk (Path.fault?_parent hq (fault?_of_goal hg) hne) hw

end FileTree

end CommandLog
