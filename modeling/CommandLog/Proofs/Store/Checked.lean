import Mathlib.Data.List.Infix
import CommandLog.Proofs.Store.Addressing

/-! # Requests with every step checked

In words of 64 bits a sum can be too large to be counted, a difference can fall below zero, and an
index or a slice can miss what it is taken from. Here the requests to a store are carried out with
each of these steps checked, and a lookup that has to find a record fails if it does not. As long as
the bytes held can be counted in a word, nothing fails in a store that began empty: requests and
their answers are the same as without the checks.
-/

namespace CommandLog

namespace Word

def add? (m n : Nat) : Option Nat :=
  if m + n < UInt64.size then some (m + n) else none

def sub? (m n : Nat) : Option Nat :=
  if n ≤ m then some (m - n) else none

def mod? (m n : Nat) : Option Nat :=
  if n = 0 then none else some (m % n)

variable {m n : Nat}

theorem add?_eq (h : m + n < UInt64.size) : add? m n = some (m + n) := if_pos h

theorem sub?_eq (h : n ≤ m) : sub? m n = some (m - n) := if_pos h

theorem mod?_eq (h : 0 < n) : mod? m n = some (m % n) := if_neg h.ne'

end Word

namespace Bytes

/-- The bytes from one index up to another, if these are in order and not beyond the end. -/
def slice? (bs : Bytes) (first last : Nat) : Option Bytes :=
  if first ≤ last ∧ last ≤ bs.length then some ((bs.take last).drop first) else none

variable {bs : Bytes} {first : Nat}

theorem slice?_add {n : Nat} (h : first + n ≤ bs.length) :
    bs.slice? first (first + n) = some ((bs.drop first).take n) := by
  rw [slice?, if_pos ⟨Nat.le_add_right _ _, h⟩, List.drop_take, Nat.add_sub_cancel_left]

theorem slice?_length (h : first ≤ bs.length) :
    bs.slice? first bs.length = some (bs.drop first) := by
  rw [slice?, if_pos ⟨h, le_rfl⟩, List.take_length]

theorem slice?_min (bs : Bytes) (n : Nat) : bs.slice? 0 (min bs.length n) = some (bs.take n) := by
  rw [slice?, if_pos ⟨Nat.zero_le _, Nat.min_le_left _ _⟩, List.drop_zero, Nat.min_comm,
    ← List.take_eq_take_min]

end Bytes

namespace Store

open Record

namespace Checked

def slot (s : Store) (index : Nat) : Option Nat :=
  Word.mod? (s.head + index) s.capacity

/-- The record at an index; it has to be in a slot of the ring. -/
def held (s : Store) (index : Nat) : Option Record := do
  s.inSlot? (← slot s index)

/-- The record at any index; below the count there has to be one. -/
def get (s : Store) (index : Nat) : Option (Option Record) :=
  if s.count ≤ index then some none else (held s index).map some

/-- All records; there has to be one at every index. -/
def list (s : Store) : Option (List Record) :=
  (List.range s.count).mapM (held s)

def dropOldest (s : Store) : Option Store := do
  let oldest ← s.inSlot? s.head
  let size ← Word.sub? s.size oldest.length
  let head ← Word.mod? (s.head + 1) s.capacity
  let count ← Word.sub? s.count 1
  some { slots := s.slots.setIfInBounds s.head none, head := head, count := count, size := size }

def push (s : Store) (r : Record) : Option Store := do
  let tail ← slot s s.count
  let size ← Word.add? s.size r.length
  if tail < s.slots.size then
    some { s with
      slots := s.slots.setIfInBounds tail (some r)
      count := s.count + 1
      size := size }
  else none

def append (s : Store) (r : Record) : Option (Store × Bool) :=
  if s.isFull then do some (← push (← dropOldest s) r, true)
  else do some (← push s r, false)

/-- The place of an offset among records, of which the first has the given index and begins at the
given offset. -/
def findFrom : List Record → Nat → Nat → Nat → Option (Option Place)
  | [], _, _, _ => some none
  | r :: rs, index, start, offset => do
    let stop ← Word.add? start r.length
    if offset < stop then
      let inner ← Word.sub? offset start
      some (some ⟨index, inner⟩)
    else findFrom rs (index + 1) stop offset

def find (s : Store) (offset : Nat) : Option (Option Place) := do
  findFrom (← list s) 0 0 offset

def gather : List Record → Nat → Nat → Bytes → Option Bytes
  | [], _, _, copied => some copied
  | r :: rs, skipped, wanted, copied => do
    let remaining ← Word.sub? wanted copied.length
    if remaining = 0 then some copied
    else
      let chunk ← r.bytes.slice? skipped r.length
      let piece ← chunk.slice? 0 (min chunk.length remaining)
      gather rs 0 wanted (copied ++ piece)

/-- A piece of the content. The place of an offset has to be in a record held. -/
def readAt (s : Store) (offset limit : Nat) : Option Bytes := do
  match ← find s offset with
  | none => some []
  | some start =>
    let first ← (← get s start.index)
    let rest ← Word.sub? s.size offset
    let wanted := min rest limit
    let available ← Word.sub? first.length start.offset
    if wanted ≤ available then
      let stop ← Word.add? start.offset wanted
      first.bytes.slice? start.offset stop
    else gather ((← list s).drop start.index) start.offset wanted []

/-- The content from an offset on, limited by the greatest word alone. -/
def readFrom (s : Store) (offset : Nat) : Option Bytes :=
  readAt s offset (UInt64.size - 1)

def total (rs : List Record) : Option Nat :=
  rs.foldlM (fun n r => Word.add? n r.length) 0

def resolve (s : Store) (index offset : Nat) : Option (Except LogError Nat) := do
  match ← get s index with
  | none => some (.error (.outOfRange index offset))
  | some r =>
    if offset < r.length then
      let before ← total ((← list s).take index)
      some (.ok (← Word.add? before offset))
    else some (.error (.outOfRange index offset))

def readFromPlace (s : Store) (index offset : Nat) : Option (Except LogError Bytes) := do
  match ← resolve s index offset with
  | .error cause => some (.error cause)
  | .ok n => some (.ok (← readFrom s n))

def perform (s : Store) : Request → Option (Store × Answer)
  | .append r => do
    let (s, flag) ← append s r
    some (s, .evicted flag)
  | .readFrom offset => do some (s, .bytes (← readFrom s offset))
  | .readFromPlace index offset => do
    match ← readFromPlace s index offset with
    | .ok bs => some (s, .bytes bs)
    | .error cause => some (s, .failure cause)
  | .readAt offset limit => do some (s, .bytes (← readAt s offset limit))
  | .resolve index offset => do
    match ← resolve s index offset with
    | .ok n => some (s, .offset n)
    | .error cause => some (s, .failure cause)
  | .find offset => do some (s, .place (← find s offset))
  | .get index => do some (s, .record (← get s index))
  | .list => do some (s, .records (← list s))
  | .state => some (s, .state s.isEmpty s.isFull s.capacity)
  | .places => do some (s, .places (← (List.range (s.size + 1)).mapM (find s)))
  | .clear => some (s.clear, .done)

def performAll (s : Store) (qs : List Request) : Option Store :=
  qs.foldlM (fun s q => (perform s q).map Prod.fst) s

end Checked

variable {s : Store} {rs : List Record} {r : Record} {index offset limit : Nat}

theorem Holds.checked_slot (h : s.Holds rs) (i : Nat) : Checked.slot s i = some (s.slot i) :=
  Word.mod?_eq h.capacity_pos

theorem Holds.checked_held (h : s.Holds rs) {i : Nat} (hi : i < rs.length) :
    Checked.held s i = some rs[i] := by
  rw [Checked.held, h.checked_slot]
  exact inSlot?_eq (h.filled i hi)

theorem Holds.checked_get (h : s.Holds rs) (i : Nat) : Checked.get s i = some (s.get? i) := by
  rw [Checked.get, h.get?, h.count_eq]
  split
  case isTrue hi => rw [List.getElem?_eq_none hi]
  case isFalse hi =>
    rw [Nat.not_le] at hi
    rw [h.checked_held hi, List.getElem?_eq_getElem hi]
    rfl

theorem mapM_eq_filterMap {α β : Type*} {f : α → Option β} {xs : List α}
    (h : ∀ x ∈ xs, ∃ y, f x = some y) : xs.mapM f = some (xs.filterMap f) := by
  induction xs with
  | nil => rfl
  | cons x xs ih =>
    obtain ⟨y, hy⟩ := h x List.mem_cons_self
    rw [List.mapM_cons, hy, ih fun x hx => h x (List.mem_cons_of_mem _ hx),
      List.filterMap_cons_some hy]
    rfl

theorem Holds.checked_list (h : s.Holds rs) : Checked.list s = some s.toList := by
  have hheld : ∀ i ∈ List.range s.count, Checked.held s i = s.inSlot? (s.slot i) := by
    intro i _
    rw [Checked.held, h.checked_slot]
    rfl
  have hfound : ∀ i ∈ List.range s.count, ∃ r, Checked.held s i = some r := by
    intro i hi
    rw [List.mem_range, h.count_eq] at hi
    exact ⟨_, h.checked_held hi⟩
  rw [Checked.list, mapM_eq_filterMap hfound, List.filterMap_congr hheld, Store.toList]

theorem Holds.checked_dropOldest (h : s.Holds (r :: rs)) :
    Checked.dropOldest s = some s.dropOldest := by
  have hoff : s.inSlot? s.head = some r := inSlot?_eq (h.slot_zero ▸ h.filled 0 (by simp))
  have hsize : r.length ≤ s.size := by
    rw [h.size_eq, totalLength_cons]
    exact Nat.le_add_right _ _
  have hcount : 1 ≤ s.count := by
    rw [h.count_eq, List.length_cons]
    exact Nat.le_add_left _ _
  rw [Checked.dropOldest, hoff, Option.bind_eq_bind, Option.bind_some, Word.sub?_eq hsize,
    Word.mod?_eq h.capacity_pos, Word.sub?_eq hcount, Store.dropOldest, hoff]
  rfl

theorem Holds.checked_push (h : s.Holds rs) (hr : s.size + r.length < UInt64.size) :
    Checked.push s r = some (s.push r) := by
  rw [Checked.push, h.checked_slot, Option.bind_eq_bind, Option.bind_some, Word.add?_eq hr]
  exact if_pos (slot_lt h.capacity_pos _)

theorem Holds.checked_append (h : s.Holds rs) (hr : (s.append r).1.size < UInt64.size) :
    Checked.append s r = some (s.append r) := by
  rw [Store.append] at hr ⊢
  rw [Checked.append]
  split
  case isTrue hf =>
    rw [if_pos hf] at hr
    cases rs with
    | nil => exact absurd (h.isFull_iff.mp hf) h.capacity_pos.ne
    | cons r₀ rs =>
      rw [h.checked_dropOldest, Option.bind_eq_bind, Option.bind_some,
        h.dropOldest.checked_push hr]
      rfl
  case isFalse hf =>
    rw [if_neg hf] at hr
    rw [h.checked_push hr]
    rfl

theorem checked_findFrom {start : Nat} (hs : start ≤ offset)
    (hl : start + totalLength rs < UInt64.size) (index : Nat) :
    Checked.findFrom rs index start offset = some (findFrom? rs index (offset - start)) := by
  induction rs generalizing index start with
  | nil => rfl
  | cons r rs ih =>
    rw [totalLength_cons] at hl
    rw [Checked.findFrom, Word.add?_eq (by omega), Option.bind_eq_bind, Option.bind_some, findFrom?]
    by_cases hlt : offset < start + r.length
    · rw [if_pos hlt, if_pos (by omega), Word.sub?_eq hs]
      rfl
    · rw [if_neg hlt, if_neg (by omega), ih (by omega) (by omega), Nat.sub_add_eq]

theorem Holds.checked_find (h : s.Holds rs) (hs : s.size < UInt64.size) (offset : Nat) :
    Checked.find s offset = some (s.find? offset) := by
  rw [Checked.find, h.checked_list, h.toList, Option.bind_eq_bind, Option.bind_some,
    checked_findFrom (Nat.zero_le _) (by rwa [Nat.zero_add, ← h.size_eq]), find?, h.toList]
  rfl

/-- No more is copied than was wanted, and nothing is left out beyond a record. -/
theorem checked_gather {skipped wanted : Nat} {copied : Bytes} (hc : copied.length ≤ wanted)
    (hs : ∀ r ∈ rs.head?, skipped ≤ r.length) :
    Checked.gather rs skipped wanted copied =
      some (copied ++ gather rs skipped (wanted - copied.length)) := by
  induction rs generalizing skipped copied with
  | nil => rw [Checked.gather, gather, List.append_nil]
  | cons r rs ih =>
    have hskip : skipped ≤ r.length := hs r rfl
    rw [Checked.gather, gather, Word.sub?_eq hc, Option.bind_eq_bind, Option.bind_some]
    split
    case isTrue => rw [List.append_nil]
    case isFalse hw =>
      have hchunk : r.bytes.slice? skipped r.length = some (r.bytes.drop skipped) :=
        Bytes.slice?_length hskip
      have hlen : (copied ++ (r.bytes.drop skipped).take (wanted - copied.length)).length ≤
          wanted := by
        rw [List.length_append, List.length_take]
        omega
      simp only [hchunk, Bytes.slice?_min, Option.bind_eq_bind, Option.bind_some]
      rw [ih hlen fun _ _ => Nat.zero_le _, List.length_append, Nat.sub_add_eq, List.append_assoc]

theorem Holds.checked_readAt (h : s.Holds rs) (hs : s.size < UInt64.size) (offset limit : Nat) :
    Checked.readAt s offset limit = some (s.readAt offset limit) := by
  rw [Checked.readAt, h.checked_find hs, Option.bind_eq_bind, Option.bind_some, Store.readAt]
  cases hf : s.find? offset with
  | none => rfl
  | some start =>
    obtain ⟨first, later, hget, ho, hrest, -⟩ := h.exists_of_find? hf
    have hle : offset ≤ s.size := by
      have hlt := h.exists_find?_iff.mp ⟨start, hf⟩
      exact hlt.le
    have hget' : Checked.get s start.index = some (some first) :=
      (h.checked_get _).trans (hget ▸ rfl)
    simp only [hget', hget, Word.sub?_eq hle, Word.sub?_eq ho.le, Option.bind_eq_bind,
      Option.bind_some]
    split
    case isTrue hw =>
      obtain ⟨-, hplace⟩ := h.resolve_eq_ok_iff.mp (h.resolve_of_find? hf)
      have hstop : start.offset + min (s.size - offset) limit ≤ first.bytes.length := by
        change _ ≤ first.length
        omega
      rw [Word.add?_eq (by omega), Option.bind_some, Bytes.slice?_add hstop]
    case isFalse hw =>
      have hskip : ∀ r ∈ (s.toList.drop start.index).head?, start.offset ≤ r.length := by
        rw [hrest]
        rintro r hr
        obtain rfl := Option.some.inj hr
        exact ho.le
      rw [h.checked_list, Option.bind_some, checked_gather (Nat.zero_le _) hskip]
      rfl

theorem Holds.checked_readFrom (h : s.Holds rs) (hs : s.size < UInt64.size) (offset : Nat) :
    Checked.readFrom s offset = some (s.readFrom offset) := by
  have hle : s.size ≤ UInt64.size - 1 := Nat.le_sub_one_of_lt hs
  have hread {limit : Nat} (hl : s.size ≤ limit) :
      s.readAt offset limit = s.content.drop offset := by
    rw [Sound.readAt ⟨rs, h⟩, List.take_of_length_le]
    rw [List.length_drop, h.length_content]
    omega
  rw [Checked.readFrom, h.checked_readAt hs, Store.readFrom, hread hle, hread le_rfl]

theorem checked_total (h : totalLength rs < UInt64.size) :
    Checked.total rs = some (totalLength rs) := by
  -- on the records, with the bytes of those before them counted
  have hsum (n : Nat) (hn : n + totalLength rs < UInt64.size) :
      rs.foldlM (fun n r => Word.add? n r.length) n = some (n + totalLength rs) := by
    clear h
    induction rs generalizing n with
    | nil => rfl
    | cons r rs ih =>
      rw [totalLength_cons] at hn
      rw [List.foldlM_cons, Word.add?_eq (by omega), Option.bind_eq_bind, Option.bind_some,
        ih _ (by omega), totalLength_cons, Nat.add_assoc]
  rw [Checked.total, hsum 0 (by rwa [Nat.zero_add]), Nat.zero_add]

theorem Holds.checked_resolve (h : s.Holds rs) (hs : s.size < UInt64.size) (index offset : Nat) :
    Checked.resolve s index offset = some (s.resolve index offset) := by
  rw [Checked.resolve, h.checked_get, Option.bind_eq_bind, Option.bind_some]
  cases hr : s.get? index with
  | none => rw [Store.resolve, hr]
  | some r =>
    dsimp only
    split
    case isTrue ho =>
      have hres : s.resolve index offset = .ok (s.sizeBefore index + offset) := by
        rw [Store.resolve, hr]
        exact if_pos ho
      have hlt : s.sizeBefore index + offset < s.size :=
        h.exists_find?_iff.mp ⟨_, h.find?_of_resolve hres⟩
      have hbefore : Checked.total (s.toList.take index) = some (s.sizeBefore index) :=
        checked_total (lt_of_le_of_lt (Nat.le_add_right _ offset) (hlt.trans hs))
      simp only [h.checked_list, hbefore, Word.add?_eq (hlt.trans hs), hres, Option.bind_eq_bind,
        Option.bind_some]
    case isFalse ho =>
      rw [Store.resolve, hr]
      exact congrArg some (if_neg ho).symm

theorem Holds.checked_readFromPlace (h : s.Holds rs) (hs : s.size < UInt64.size)
    (index offset : Nat) :
    Checked.readFromPlace s index offset = some (s.readFromPlace index offset) := by
  rw [Checked.readFromPlace, h.checked_resolve hs, Option.bind_eq_bind, Option.bind_some,
    Store.readFromPlace]
  cases s.resolve index offset with
  | error cause => rfl
  | ok n =>
    dsimp only
    rw [h.checked_readFrom hs]
    rfl

/-- No step of a request fails as long as the bytes held can be counted, now and afterwards. -/
theorem Holds.checked_perform (h : s.Holds rs) (hs : s.size < UInt64.size) (q : Request)
    (hq : (s.perform q).1.size < UInt64.size) : Checked.perform s q = some (s.perform q) := by
  cases q with
  | append r =>
    rw [Checked.perform, h.checked_append hq]
    rfl
  | readFrom offset =>
    rw [Checked.perform, h.checked_readFrom hs]
    rfl
  | readFromPlace index offset =>
    rw [Checked.perform, h.checked_readFromPlace hs, perform]
    cases s.readFromPlace index offset <;> rfl
  | readAt offset limit =>
    rw [Checked.perform, h.checked_readAt hs]
    rfl
  | resolve index offset =>
    rw [Checked.perform, h.checked_resolve hs, perform]
    cases s.resolve index offset <;> rfl
  | find offset =>
    rw [Checked.perform, h.checked_find hs]
    rfl
  | get index =>
    rw [Checked.perform, h.checked_get]
    rfl
  | list =>
    rw [Checked.perform, h.checked_list]
    rfl
  | places =>
    have hfind : ∀ n ∈ List.range (s.size + 1), Checked.find s n = some (s.find? n) :=
      fun n _ => h.checked_find hs n
    rw [Checked.perform, mapM_eq_filterMap fun n hn => ⟨_, hfind n hn⟩,
      List.filterMap_congr hfind, List.filterMap_eq_map']
    rfl
  | state | clear => rfl

theorem checked_performAll {c : Nat} (hc : 0 < c) (qs : List Request)
    (hs : ∀ qs', qs' <+: qs → ((empty c).performAll qs').size < UInt64.size) :
    Checked.performAll (empty c) qs = some ((empty c).performAll qs) := by
  induction qs using List.reverseRecOn with
  | nil => rfl
  | append_singleton qs q ih =>
    have hbefore : ∀ qs', qs' <+: qs → ((empty c).performAll qs').size < UInt64.size :=
      fun qs' hqs => hs qs' (hqs.trans (List.prefix_append _ _))
    have hafter : (((empty c).performAll qs).perform q).1.size < UInt64.size := by
      rw [← performAll_concat]
      exact hs _ (List.prefix_refl _)
    have hstep :=
      (performAll_holds hc qs).checked_perform (hbefore qs (List.prefix_refl _)) q hafter
    have hrun : qs.foldlM (fun s q => (Checked.perform s q).map Prod.fst) (empty c) = _ :=
      ih hbefore
    rw [Checked.performAll, List.foldlM_append, hrun, Option.bind_eq_bind, Option.bind_some,
      List.foldlM_cons, hstep, performAll_concat]
    rfl

/-- In a store that began empty no sum, difference, index or slice of any request fails, nor does a
lookup that has to find a record, as long as the bytes held can be counted in a word: requests and
their answers are the same with and without these checks. Slots are counted from the head on by less
than the capacity. -/
theorem requests_never_fail {c : Nat} (hc : 0 < c) :
    ∃ s₀, ofCapacity c = .ok s₀ ∧ ∀ qs : List Request,
      (∀ qs', qs' <+: qs → (s₀.performAll qs').size < UInt64.size) →
        let s := s₀.performAll qs
        Checked.performAll s₀ qs = some s ∧
          (∀ q, (s.perform q).1.size < UInt64.size → Checked.perform s q = some (s.perform q)) ∧
          s.head < c ∧ s.count ≤ c := by
  refine ⟨empty c, if_neg hc.ne', fun qs hs => ?_⟩
  have h := performAll_holds hc qs
  have hcap : ((empty c).performAll qs).capacity = c := by simp [capacity_performAll]
  refine ⟨checked_performAll hc qs hs, h.checked_perform (hs qs (List.prefix_refl _)), ?_, ?_⟩
  · exact h.head_lt.trans_eq hcap
  · exact h.count_eq.trans_le (h.fits.trans_eq hcap)

/-- Two records on either side of the seam of a ring that gave up an empty one. -/
theorem requests_never_fail_round :
    0 < 2 ∧ ∃ s₀, ofCapacity 2 = .ok s₀ ∧
      let s := s₀.performAll [.append ⟨[]⟩, .append ⟨[97, 10]⟩, .append ⟨[98, 99, 10]⟩]
      Checked.perform s (.append ⟨[100]⟩) = some (s.perform (.append ⟨[100]⟩)) ∧
        Checked.perform s (.readAt 1 (UInt64.size - 1)) = some (s, .bytes [10, 98, 99, 10]) := by
  obtain ⟨s₀, h₀, h⟩ := requests_never_fail (Nat.zero_lt_succ 1)
  obtain rfl : empty 2 = s₀ := Except.ok.inj h₀
  have hs : ∀ qs' ∈ List.inits [Request.append ⟨[]⟩, .append ⟨[97, 10]⟩, .append ⟨[98, 99, 10]⟩],
      ((empty 2).performAll qs').size < UInt64.size := by decide
  obtain ⟨-, hanswer, -⟩ := h _ fun qs' hqs => hs qs' ((List.mem_inits _ _).mpr hqs)
  refine ⟨Nat.zero_lt_succ 1, _, h₀, hanswer _ (by decide), ?_⟩
  rw [hanswer _ (by decide)]
  decide

end Store

end CommandLog
