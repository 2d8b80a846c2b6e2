import Mathlib.Data.List.Infix
import CommandLog.Proofs.Device.Assembly
import CommandLog.Proofs.Hub.Run

/-! # Reading on at a cursor

Only what goes through a handle moves its cursor. While the store grows without loss and the handle
is only read, its reads give one piece of the content between them, no byte twice and none left out,
whoever appends meanwhile.
-/

namespace CommandLog

def Operation.handle? : Operation → Option Nat
  | write n _ | read n _ | readAt n _ _ | seekTo n _ | seek n _ => some n
  | _ => none

namespace Resources

variable {r r' : Resources} {n m : Nat}

theorem handle_of_handles (h : r.handles = r'.handles) (n : Nat) : r.handle n = r'.handle n :=
  congrArg (fun hs : List Handle => hs.getD n ⟨0, 0⟩) h

theorem handle_setCursor_self (hn : n < r.handles.length) (cursor : Nat) :
    (r.setCursor n cursor).handle n = { r.handle n with cursor := cursor } := by
  simp [handle, setCursor, List.getD_eq_getElem?_getD, hn]

theorem handle_setCursor_of_ne (hm : m ≠ n) (r : Resources) (cursor : Nat) :
    (r.setCursor m cursor).handle n = r.handle n := by
  simp [handle, setCursor, List.getD_eq_getElem?_getD, hm]

end Resources

namespace Deed

open Resources

variable {x : Deed} {r : Resources} {n : Nat}

def handle? : Deed → Option Nat
  | exchange _ => none
  | errand op => op.handle?

/-- Whether a deed reads through a handle, at the cursor or elsewhere. -/
def isRead : Deed → Bool
  | errand (.read _ _) | errand (.readAt _ _ _) => true
  | _ => false

theorem eq_of_isRead (hr : x.isRead = true) (hn : x.handle? = some n) :
    (∃ limit, x = .errand (.read n limit)) ∨
      ∃ offset limit, x = .errand (.readAt n offset limit) := by
  cases x with
  | exchange => cases hr
  | errand op =>
    cases op with
    | read m limit =>
      obtain rfl := Option.some.inj hn
      exact .inl ⟨limit, rfl⟩
    | readAt m offset limit =>
      obtain rfl := Option.some.inj hn
      exact .inr ⟨offset, limit, rfl⟩
    | _ => cases hr

theorem handles_act (x : Deed) (r : Resources) : (x.act r).2.handles = r.handles ∨
    ∃ n cursor, x.handle? = some n ∧ (x.act r).2.handles = (r.setCursor n cursor).handles := by
  cases x with
  | exchange request => exact .inl (exchange_act request r).2
  | errand op =>
    cases op with
    | write n | read n => exact .inr ⟨n, _, rfl, rfl⟩
    | seekTo n directive =>
      simp only [act, Operation.act]
      split
      · exact .inr ⟨n, _, rfl, rfl⟩
      · exact .inl rfl
    | seek n target =>
      simp only [act, Operation.act]
      split
      · exact .inr ⟨n, _, rfl, rfl⟩
      · exact .inl rfl
    | _ => exact .inl rfl

theorem length_handles_act (x : Deed) (r : Resources) :
    (x.act r).2.handles.length = r.handles.length := by
  rcases x.handles_act r with he | ⟨n, cursor, -, he⟩
  · rw [he]
  · rw [he]
    exact List.length_modify ..

theorem handle_act_of_ne (hn : x.handle? ≠ some n) (r : Resources) :
    (x.act r).2.handle n = r.handle n := by
  rcases x.handles_act r with he | ⟨m, cursor, hm, he⟩
  · exact handle_of_handles he n
  · rw [handle_of_handles he, handle_setCursor_of_ne]
    rintro rfl
    exact hn hm

/-- Of what reads, only a read at the cursor moves it. -/
theorem handle_act_of_ne_read (hr : x.handle? = some n → x.isRead = true)
    (hne : ∀ limit, x ≠ .errand (.read n limit)) (r : Resources) :
    (x.act r).2.handle n = r.handle n := by
  by_cases hh : x.handle? = some n
  · obtain ⟨limit, rfl⟩ | ⟨offset, limit, rfl⟩ := eq_of_isRead (hr hh) hh
    · exact absurd rfl (hne limit)
    · rfl
  · exact handle_act_of_ne hh r

theorem act_read (hs : r.store.Sound) (n limit : Nat) :
    let bs := (r.store.content.drop (r.handle n).cursor).take limit
    (errand (.read n limit)).act r =
      (.errand (.ok (.bytes bs)), r.setCursor n ((r.handle n).cursor + bs.length)) := by
  simp [act, Operation.act, hs.readAt]

theorem store_act_of_records_eq_nil (hc : x ≠ .errand .clear) (hr : x.records r = []) :
    (x.act r).2.store = r.store := by
  rw [store_act, if_neg hc, hr, Store.appendAll_nil]

theorem content_act (hs : r.store.Sound) (hc : x ≠ .errand .clear)
    (hk : r.store.Keeps (x.records r)) :
    (x.act r).2.store.content = r.store.content ++ Record.joined (x.records r) := by
  rw [store_act, if_neg hc, hs.content_appendAll hk]

/-- A deed that drops no record, and only reads if it goes through the handle. -/
def LeavesReading (n : Nat) (r : Resources) (x : Deed) : Prop :=
  x ≠ .errand .clear ∧ r.store.Keeps (x.records r) ∧ (x.handle? = some n → x.isRead = true)

instance (n : Nat) (r : Resources) (x : Deed) : Decidable (x.LeavesReading n r) :=
  inferInstanceAs (Decidable (_ ∧ _ ∧ _))

end Deed

theorem Errand.Move.finished {e e' : Errand} {id : TaskId} {r r' : Resources} {op : Operation}
    {n : Nat} (m : e.Move id r (some (.errand op)) e' r') (hn : op.handle? = some n) :
    e' = ⟨op, .finished (op.act r).1⟩ := by
  have hop : op = e.operation := by simpa using m.deed.2 _ rfl
  subst hop
  cases m with
  | collect | act => rfl
  | hold _ _ ho | tick _ _ ho => cases ho ▸ hn

theorem Task.Change.finished {id : TaskId} {r r' : Resources} {ev : Hub.Event} {t t' : Task}
    {op : Operation} {n : Nat} (c : Change id r ev t (some (.errand op)) t' r')
    (hn : op.handle? = some n) : t'.errand? = some ⟨op, .finished (op.act r).1⟩ := by
  cases c with
  | session m => cases m
  | errand m => exact congrArg some (m.finished hn)
  | ticker m =>
    cases m with
    | tick _ m => exact congrArg some (m.finished hn)

namespace Hub

variable {h : Hub} {ev : Event} {evs : List Event} {e : Entry} {n : Nat}

theorem length_handles_run (h : Hub) (evs : List Event) :
    (h.run evs).resources.handles.length = h.resources.handles.length :=
  run_ledger (P := fun l => l.handles.length = h.resources.handles.length)
    (fun x r hr => (x.length_handles_act r).trans hr) rfl evs

theorem finished_of_part? {op : Operation} (he : h.part? ev = some e) (hd : e.deed = .errand op)
    (hn : op.handle? = some n) : e.answer = .errand (op.act h.resources).1 ∧
      ∃ t, (h.next ev).tasks[e.task]? = some t ∧
        t.errand? = some ⟨op, .finished (op.act h.resources).1⟩ := by
  obtain ⟨t, t', r', ht, hc, hnext, hanswer⟩ := part?_change he
  obtain ⟨hlt, -⟩ := List.getElem?_eq_some_iff.mp ht
  rw [hd] at hc hanswer
  exact ⟨hanswer, t', by simp [hnext, put, hlt], hc.finished hn⟩

/-- The bytes that a read through a handle has given. -/
def Entry.given (n : Nat) (e : Entry) : Bytes :=
  match e.deed, e.answer with
  | .errand (.read m _), .errand (.ok (.bytes bs)) => if m = n then bs else []
  | _, _ => []

def consumed (h : Hub) (n : Nat) (evs : List Event) : Bytes :=
  (h.history evs).flatMap (Entry.given n)

theorem Entry.given_eq_nil (hn : ∀ limit, e.deed ≠ .errand (.read n limit)) : e.given n = [] := by
  unfold given
  split
  case h_1 m limit bs hd _ =>
    refine if_neg ?_
    rintro rfl
    exact hn limit hd
  case h_2 => rfl

theorem read_of_part? {limit : Nat} (hs : h.resources.store.Sound)
    (hn : n < h.resources.handles.length) (he : h.part? ev = some e)
    (hd : e.deed = .errand (.read n limit)) :
    let cursor := (h.resources.handle n).cursor
    let bs := (h.resources.store.content.drop cursor).take limit
    e.answer = .errand (.ok (.bytes bs)) ∧ e.given n = bs ∧
      (h.next ev).resources.handle n =
        { h.resources.handle n with cursor := cursor + bs.length } := by
  intro cursor bs
  obtain ⟨-, -, -, -, -, -, hanswer⟩ := part?_change he
  rw [hd, Deed.act_read hs] at hanswer
  refine ⟨hanswer, by simp [Entry.given, hd, hanswer, bs, cursor], ?_⟩
  rw [Resources.handle_congr (ledger_of_part? he), hd, Deed.act_read hs,
    Resources.handle_setCursor_self hn]

/-- A deed that leaves the reading alone moves the cursor over what it gives, which is what the
content has there. -/
theorem given_of_part? (hs : h.resources.store.Sound) (hn : n < h.resources.handles.length)
    (he : h.part? ev = some e) (hl : e.deed.LeavesReading n h.resources) :
    ((h.next ev).resources.handle n).cursor =
        (h.resources.handle n).cursor + (e.given n).length ∧
      e.given n <+: h.resources.store.content.drop (h.resources.handle n).cursor := by
  have hledger := ledger_of_part? he
  by_cases hr : ∃ limit, e.deed = .errand (.read n limit)
  case pos =>
    obtain ⟨limit, hd⟩ := hr
    obtain ⟨-, hgiven, hhandle⟩ := read_of_part? hs hn he hd
    rw [hgiven, hhandle]
    exact ⟨rfl, List.take_prefix _ _⟩
  case neg =>
    have hne := not_exists.mp hr
    have hhandle : (h.next ev).resources.handle n = h.resources.handle n :=
      (Resources.handle_congr hledger n).trans (Deed.handle_act_of_ne_read hl.2.2 hne _)
    rw [Entry.given_eq_nil hne, hhandle]
    exact ⟨rfl, List.nil_prefix⟩

theorem append_prefix_drop {α : Type*} {xs ys zs : List α} {k : Nat} (hx : xs <+: zs.drop k)
    (hy : ys <+: zs.drop (k + xs.length)) : xs ++ ys <+: zs.drop k := by
  obtain ⟨rest, hr⟩ := hx
  rw [← List.drop_drop, ← hr, List.drop_left] at hy
  rw [← hr]
  exact (List.prefix_append_right_inj xs).mpr hy

/-- The reads of a run have given a front of the content behind the place where they began, and the
cursor has passed it. -/
theorem run_consumed (hs : h.resources.store.Sound) (hn : n < h.resources.handles.length)
    (hl : h.Throughout (Deed.LeavesReading n) evs) :
    ((h.run evs).resources.handle n).cursor =
        (h.resources.handle n).cursor + (h.consumed n evs).length ∧
      h.consumed n evs <+:
        (h.run evs).resources.store.content.drop (h.resources.handle n).cursor := by
  induction evs using List.reverseRecOn with
  | nil => exact ⟨rfl, List.nil_prefix⟩
  | append_singleton evs ev ih =>
    obtain ⟨hl, hlast⟩ := throughout_concat.mp hl
    obtain ⟨hcursor, hfront⟩ := ih hl
    have hn' : n < (h.run evs).resources.handles.length := by rwa [length_handles_run]
    rw [consumed, history_concat, List.flatMap_append, ← consumed, run_concat]
    cases he : (h.run evs).part? ev with
    | none =>
      have hledger := ledger_of_part?_eq_none he
      rw [Resources.handle_congr hledger, Resources.store_congr hledger]
      simpa using ⟨hcursor, hfront⟩
    | some e =>
      have hle := hlast e he
      obtain ⟨hmove, hgiven⟩ := given_of_part? (sound_run hs evs) hn' he hle
      have hstore := Resources.store_congr (ledger_of_part? he)
      have hgrow := Deed.content_act (sound_run hs evs) hle.1 hle.2.1
      rw [hcursor] at hmove hgiven
      rw [Option.toList_some, List.flatMap_singleton, List.length_append, hmove, hstore, hgrow]
      refine ⟨Nat.add_assoc _ _ _, append_prefix_drop ?_ ?_⟩
      · exact hfront.trans (List.IsPrefix.drop (List.prefix_append _ _) _)
      · exact hgiven.trans (List.IsPrefix.drop (List.prefix_append _ _) _)

structure ReadsOn (h : Hub) (n : Nat) (evs : List Event) : Prop where
  cursor : ((h.run evs).resources.handle n).cursor =
    (h.resources.handle n).cursor + (h.consumed n evs).length
  /-- Between them the reads gave the content from where the cursor was to where it is now. -/
  piece : let start := (h.resources.handle n).cursor
    h.consumed n evs = ((h.run evs).resources.store.content.drop start).take
      (((h.run evs).resources.handle n).cursor - start)
  /-- A read gives and returns what the content has beyond the cursor, as far as it may, and the
  cursor moves by that; beyond the end it gives nothing, and nothing moves. -/
  read : ∀ earlier ev later e limit, evs = earlier ++ ev :: later →
    (h.run earlier).part? ev = some e → e.deed = .errand (.read n limit) →
    let before := (h.run earlier).resources
    let after := (h.run (earlier ++ [ev])).resources
    let cursor := (before.handle n).cursor
    ∃ bs, e.answer = .errand (.ok (.bytes bs)) ∧ e.given n = bs ∧
      (∃ t, (h.run (earlier ++ [ev])).tasks[e.task]? = some t ∧
        t.errand? = some ⟨.read n limit, .finished (.ok (.bytes bs))⟩) ∧
      bs = (before.store.content.drop cursor).take limit ∧
      bs.length = min limit (before.store.content.length - cursor) ∧
      (after.handle n).cursor = cursor + bs.length ∧
      (before.store.content.length ≤ cursor → bs = [] ∧ after.handle n = before.handle n)
  /-- A read elsewhere moves no cursor at all. -/
  readAt : ∀ earlier ev later e m offset limit, evs = earlier ++ ev :: later →
    (h.run earlier).part? ev = some e → e.deed = .errand (.readAt m offset limit) →
    (h.run (earlier ++ [ev])).resources.handles = (h.run earlier).resources.handles

/-- While nothing is dropped and the handle is only read, the reads through it give every byte of
the content from its cursor on once, whatever they may take at most and whoever appends. -/
theorem reads_once (hs : h.resources.store.Sound) (hn : n < h.resources.handles.length)
    (hl : h.Throughout (Deed.LeavesReading n) evs) : h.ReadsOn n evs := by
  obtain ⟨hcursor, hfront⟩ := run_consumed hs hn hl
  refine ⟨hcursor, ?_, ?_, ?_⟩
  · intro start
    rw [hcursor, Nat.add_sub_cancel_left]
    exact List.prefix_iff_eq_take.mp hfront
  · rintro earlier ev later e limit rfl he hd before after cursor
    have hn' : n < before.handles.length := by rwa [length_handles_run]
    obtain ⟨hanswer, hgiven, hhandle⟩ := read_of_part? (sound_run hs earlier) hn' he hd
    obtain ⟨hact, t, ht, hreturned⟩ := finished_of_part? he hd rfl
    rw [← Answer.errand.inj (hanswer.symm.trans hact)] at hreturned
    have hafter : after.handle n = _ := run_concat h earlier ev ▸ hhandle
    refine ⟨_, hanswer, hgiven, ⟨t, run_concat h earlier ev ▸ ht, hreturned⟩, rfl, ?_, ?_, ?_⟩
    · rw [List.length_take, List.length_drop]
    · rw [hafter]
    · intro hend
      have hnil : (before.store.content.drop cursor).take limit = [] := by
        rw [List.drop_of_length_le hend, List.take_nil]
      rw [hafter]
      exact ⟨hnil, by rw [hnil]; rfl⟩
  · rintro earlier ev later e m offset limit rfl he hd
    rw [run_concat]
    refine (congrArg Ledger.handles (ledger_of_part? he)).trans ?_
    rw [hd]
    rfl

/-- A hub with a device, on which one handle is open at the start and one far beyond the end. -/
def desk : Hub where
  resources := {
    store := .empty 3, timeout := .ofSeconds 5, dial := fun _ => ⟨0, 0, 0⟩,
    devices := [{}], handles := [⟨0, 0⟩, ⟨0, 18446744073709551615⟩] }

theorem desk_sound : desk.resources.store.Sound :=
  ⟨[], Store.empty_holds (by decide)⟩

/-- Between a read of one byte and a read without a bound, another handle writes a line. -/
def turns : List Event :=
  [.spawn (.errand ⟨.append ⟨[97, 10]⟩, .fresh⟩), .spawn (.errand ⟨.read 0 1, .fresh⟩),
    .spawn (.errand ⟨.write 1 [98, 10], .fresh⟩),
    .spawn (.errand ⟨.read 0 18446744073709551615, .fresh⟩), .step 0, .step 0, .step 1, .step 1,
    .step 2, .step 2, .step 2, .step 3, .step 3]

theorem turns_read_once :
    desk.resources.store.Sound ∧ 0 < desk.resources.handles.length ∧
      desk.Throughout (Deed.LeavesReading 0) turns ∧ desk.consumed 0 turns = [97, 10, 98, 10] ∧
      desk.ReadsOn 0 turns := by
  have hn : 0 < desk.resources.handles.length := by decide
  have hl : desk.Throughout (Deed.LeavesReading 0) turns := by decide
  exact ⟨desk_sound, hn, hl, by decide, reads_once desk_sound hn hl⟩

end Hub

end CommandLog
