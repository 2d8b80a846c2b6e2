import CommandLog.Proofs.Device.Seeking
import CommandLog.Proofs.Device.Stream

/-! # Reading back what was written

A handle that writes at the end of the content is ahead of it by what is pending on its device. When
the last line is complete both meet again, however the data were cut into writes: a seek back by
their length makes them what is read next.
-/

namespace CommandLog

open Record

theorem Record.joined_map_mk (ls : List Bytes) : joined (ls.map Record.mk) = ls.flatten := by
  simp [joined, Function.comp_def]

namespace Deed

open Resources

variable {x : Deed} {r : Resources} {n : Nat} {data : Bytes}

def written? (n : Nat) : Deed → Option Bytes
  | errand (.write m data) => if m = n then some data else none
  | _ => none

theorem written?_eq_some_iff : x.written? n = some data ↔ x = .errand (.write n data) := by
  unfold written?
  split
  case h_1 m data' =>
    simp only [errand.injEq, Operation.write.injEq]
    split <;> simp_all
  case h_2 hx =>
    refine ⟨nofun, ?_⟩
    rintro rfl
    exact absurd rfl (hx n data)

theorem writes?_of_written? (hx : x.written? n = some data) (r : Resources) :
    x.writes? (r.owner n) r = some data :=
  writes?_eq_some_iff.mpr ⟨n, written?_eq_some_iff.mp hx, rfl⟩

/-- A deed that adds nothing to the store or to what is pending on the device of a handle, and only
reads if it goes through the handle. -/
def AddsNothing (n : Nat) (r : Resources) (x : Deed) : Prop :=
  x ≠ .errand .clear ∧ x.records r = [] ∧ x.writes? (r.owner n) r = none ∧
    (x.handle? = some n → x.isRead = true)

instance (n : Nat) (r : Resources) (x : Deed) : Decidable (x.AddsNothing n r) :=
  inferInstanceAs (Decidable (_ ∧ _ ∧ _ ∧ _))

def LeavesWriting (n : Nat) (r : Resources) (x : Deed) : Prop :=
  (x.written? n).isSome ∨ x.AddsNothing n r

instance (n : Nat) (r : Resources) (x : Deed) : Decidable (x.LeavesWriting n r) :=
  inferInstanceAs (Decidable (_ ∨ _))

theorem handle_act_of_end (hs : r.store.Sound) (hn : n < r.handles.length)
    (hend : r.store.content.length ≤ (r.handle n).cursor)
    (hr : x.handle? = some n → x.isRead = true) : (x.act r).2.handle n = r.handle n := by
  by_cases hx : ∃ limit, x = .errand (.read n limit)
  case pos =>
    obtain ⟨limit, rfl⟩ := hx
    rw [act_read hs, handle_setCursor_self hn, List.drop_of_length_le hend, List.take_nil]
    rfl
  case neg => exact handle_act_of_ne_read hr (not_exists.mp hx) r

end Deed

namespace Hub

variable {h h' : Hub} {ev : Event} {evs : List Event} {e : Entry} {n : Nat} {data : Bytes}

def wrote (n : Nat) (h : Hub) (ev : Event) : Bytes :=
  (h.part? ev).elim [] fun e => (e.deed.written? n).getD []

def written (h : Hub) (n : Nat) (evs : List Event) : Bytes :=
  along (wrote n) h evs

theorem length_devices_run (h : Hub) (evs : List Event) :
    (h.run evs).resources.devices.length = h.resources.devices.length := by
  have hkeeps := run_ledger (P := fun l => l.pending.length = h.resources.devices.length)
    (fun x r hr => ?_) (List.length_map _) evs
  · rwa [Resources.ledger, List.length_map] at hkeeps
  · rw [Resources.ledger, List.length_map] at hr ⊢
    exact (x.length_devices_act r).trans hr

theorem next_of_written (hn : n < h.resources.handles.length)
    (hd : h.resources.owner n < h.resources.devices.length) (he : h.part? ev = some e)
    (hw : e.deed.written? n = some data) :
    let assembled := Device.assemble (h.resources.device (h.resources.owner n)).pending data
    wrote n h ev = data ∧ (h.next ev).resources.store = h.resources.store.appendAll assembled.1 ∧
      ((h.next ev).resources.device (h.resources.owner n)).pending = assembled.2 ∧
      (h.next ev).resources.handle n =
        { h.resources.handle n with cursor := (h.resources.handle n).cursor + data.length } := by
  have hdeed := Deed.written?_eq_some_iff.mp hw
  obtain ⟨-, hstore, hhandles⟩ := next_write he hdeed
  have hwrites : h.writes? (h.resources.owner n) ev = some data := by
    rw [writes?, he]
    exact Deed.writes?_of_written? hw _
  refine ⟨by simp [wrote, he, hw], hstore, ?_, ?_⟩
  · rw [pending_next hd, hwrites]
    rfl
  · simp [Resources.handle, hhandles, List.getD_eq_getElem?_getD, hn]

theorem next_of_addsNothing (hs : h.resources.store.Sound) (hn : n < h.resources.handles.length)
    (hd : h.resources.owner n < h.resources.devices.length)
    (hend : h.resources.store.content.length ≤ (h.resources.handle n).cursor)
    (hw : ∀ e ∈ h.part? ev, e.deed.AddsNothing n h.resources) :
    wrote n h ev = [] ∧ (h.next ev).resources.store = h.resources.store ∧
      ((h.next ev).resources.device (h.resources.owner n)).pending =
        (h.resources.device (h.resources.owner n)).pending ∧
      (h.next ev).resources.handle n = h.resources.handle n := by
  rw [pending_next hd, wrote, writes?]
  cases he : h.part? ev with
  | none =>
    have hledger := ledger_of_part?_eq_none he
    exact ⟨rfl, Resources.store_congr hledger, rfl, Resources.handle_congr hledger n⟩
  | some e =>
    have hledger := ledger_of_part? he
    obtain ⟨hclear, hrecords, hwrites, hread⟩ := hw e he
    have hnone : e.deed.written? n = none := by
      by_contra hsome
      obtain ⟨data, hdata⟩ := Option.ne_none_iff_exists'.mp hsome
      cases hwrites.symm.trans (Deed.writes?_of_written? hdata h.resources)
    refine ⟨by simp [hnone], ?_, by simp [hwrites], ?_⟩
    · rw [Resources.store_congr hledger, Deed.store_act_of_records_eq_nil hclear hrecords]
    · rw [Resources.handle_congr hledger, Deed.handle_act_of_end hs hn hend hread]

/-- The lines of all that a handle at the end has written have come into the store, the rest is
pending, and the cursor has passed all of it. -/
structure Advanced (h : Hub) (n : Nat) (evs : List Event) : Prop where
  store : (h.run evs).resources.store =
    h.resources.store.appendAll ((h.written n evs).lines.map Record.mk)
  pending : ((h.run evs).resources.device (h.resources.owner n)).pending =
    (h.written n evs).unfinished
  handle : (h.run evs).resources.handle n = { h.resources.handle n with
    cursor := (h.resources.handle n).cursor + (h.written n evs).length }

theorem Advanced.content (ha : h.Advanced n evs) (hs : h.resources.store.Sound)
    (hk : h.resources.store.Keeps ((h.written n evs).lines.map Record.mk)) :
    (h.run evs).resources.store.content =
      h.resources.store.content ++ (h.written n evs).lines.flatten := by
  rw [ha.store, hs.content_appendAll hk, joined_map_mk]

theorem Advanced.cursor (ha : h.Advanced n evs) (hs : h.resources.store.Sound)
    (hk : h.resources.store.Keeps ((h.written n evs).lines.map Record.mk))
    (hc : (h.resources.handle n).cursor = h.resources.store.size) :
    ((h.run evs).resources.handle n).cursor =
      (h.run evs).resources.store.content.length + (h.written n evs).unfinished.length := by
  have hlength := congrArg List.length (h.written n evs).flatten_lines_append_unfinished
  rw [List.length_append] at hlength
  rw [ha.handle, ha.content hs hk, List.length_append, hs.length_content, hc, Nat.add_assoc,
    hlength]

theorem written_concat (h : Hub) (n : Nat) (evs : List Event) (ev : Event) :
    h.written n (evs ++ [ev]) = h.written n evs ++ wrote n (h.run evs) ev :=
  along_concat ..

section Run

variable (hn : n < h.resources.handles.length)
  (hd : h.resources.owner n < h.resources.devices.length)

include hn hd

/-- What was pending ends the data so far, so new data complete the same lines behind both. -/
theorem Advanced.write (ha : h.Advanced n evs) (he : (h.run evs).part? ev = some e)
    (hdata : e.deed.written? n = some data) : h.Advanced n (evs ++ [ev]) := by
  have howner : (h.run evs).resources.owner n = h.resources.owner n :=
    congrFun (run_owner h evs) n
  obtain ⟨hwrote, hstore, hpending, hhandle⟩ := next_of_written
    (by rwa [length_handles_run]) (by rwa [howner, length_devices_run]) he hdata
  rw [howner, ha.pending, Device.assemble_eq (Bytes.newline_not_mem_unfinished _)]
    at hstore hpending
  constructor
  · rw [run_concat, written_concat, hwrote, hstore, ha.store, Bytes.lines_append (h.written n evs),
      List.map_append, Store.appendAll_append]
  · rw [run_concat, written_concat, hwrote, hpending, Bytes.unfinished_append (h.written n evs)]
  · rw [run_concat, written_concat, hwrote, hhandle, ha.handle, List.length_append, Nat.add_assoc]

theorem Advanced.pass (ha : h.Advanced n evs) (hs : h.resources.store.Sound)
    (hend : (h.run evs).resources.store.content.length ≤ ((h.run evs).resources.handle n).cursor)
    (hw : ∀ e ∈ (h.run evs).part? ev, e.deed.AddsNothing n (h.run evs).resources) :
    h.Advanced n (evs ++ [ev]) := by
  have howner : (h.run evs).resources.owner n = h.resources.owner n :=
    congrFun (run_owner h evs) n
  obtain ⟨hwrote, hstore, hpending, hhandle⟩ := next_of_addsNothing (sound_run hs evs)
    (by rwa [length_handles_run]) (by rwa [howner, length_devices_run]) hend hw
  rw [howner] at hpending
  constructor
  · rw [run_concat, written_concat, hwrote, hstore, List.append_nil, ha.store]
  · rw [run_concat, written_concat, hwrote, hpending, List.append_nil, ha.pending]
  · rw [run_concat, written_concat, hwrote, hhandle, List.append_nil, ha.handle]

/-- A handle at the end that alone adds to the store advances over all that it writes. -/
theorem run_advanced (hs : h.resources.store.Sound)
    (hp : (h.resources.device (h.resources.owner n)).pending = [])
    (hc : (h.resources.handle n).cursor = h.resources.store.size)
    (hk : h.resources.store.Keeps ((h.written n evs).lines.map Record.mk))
    (hw : h.Throughout (Deed.LeavesWriting n) evs) : h.Advanced n evs := by
  induction evs using List.reverseRecOn with
  | nil => exact ⟨rfl, hp, rfl⟩
  | append_singleton evs ev ih =>
    obtain ⟨hw, hlast⟩ := throughout_concat.mp hw
    rw [written_concat, Bytes.lines_append, List.map_append, Store.keeps_append] at hk
    have ha := ih hk.1 hw
    by_cases hx : ∃ e data, (h.run evs).part? ev = some e ∧ e.deed.written? n = some data
    case pos =>
      obtain ⟨e, data, he, hdata⟩ := hx
      exact ha.write hn hd he hdata
    case neg =>
      refine ha.pass hn hd hs ?_ fun e he => (hlast e he).resolve_left fun hsome => ?_
      · rw [ha.cursor hs hk.1 hc]
        exact Nat.le_add_right _ _
      · obtain ⟨data, hdata⟩ := Option.isSome_iff_exists.mp hsome
        exact hx ⟨e, data, he, hdata⟩

end Run

/-- From the end of the content, a seek back by the length of what ends it leads to the place where
that begins, and a read that follows gives it. -/
theorem Fulfils.back {front data : Bytes} {result : Except LogError Reply}
    (hf : h.Fulfils n (.seek n (.current (-data.length))) result h')
    (hs : h.resources.store.Sound) (hn : n < h.resources.handles.length)
    (hc : (h.resources.handle n).cursor = h.resources.store.size)
    (hcontent : h.resources.store.content = front ++ data) :
    result = .ok (.number front.length) ∧ h'.resources.store = h.resources.store ∧
      ∀ result' h'', h'.Fulfils n (.read n data.length) result' h'' →
        result' = .ok (.bytes data) ∧ h''.resources.store = h.resources.store := by
  have hsize : h.resources.store.size = front.length + data.length := by
    rw [← hs.length_content, hcontent, List.length_append]
  have hposition : (SeekTarget.current (-data.length)).position (h.resources.handle n).cursor
      h.resources.store.size = front.length := by
    rw [hc, hsize, SeekTarget.position, Int.natCast_add, Int.add_neg_cancel_right]
  have hsought := hf.sought hn
  obtain ⟨k, hk, rfl, hhandle⟩ := hsought.inside (by rw [hposition, hsize]; omega)
  obtain rfl : k = front.length := Int.ofNat_inj.mp (hk.trans hposition)
  refine ⟨rfl, hsought.store, fun result' h'' hread => ?_⟩
  obtain ⟨hstore, hresult⟩ := hread.read (hsought.store ▸ hs)
  rw [hsought.store, hhandle, hcontent, List.drop_left, List.take_length] at hresult
  exact ⟨hresult, hstore.trans hsought.store⟩

/-- What a handle at the end has written, when its last line is complete. -/
structure ReadsBack (h : Hub) (n : Nat) (evs : List Event) : Prop where
  cursor : ((h.run evs).resources.handle n).cursor = (h.run evs).resources.store.size
  content : (h.run evs).resources.store.content = h.resources.store.content ++ h.written n evs
  pending : ((h.run evs).resources.device (h.resources.owner n)).pending = []
  /-- A seek back by the length of the data leads to where they begin, and a read that follows gives
  them. -/
  back : let data := h.written n evs
    ∀ result h', (h.run evs).Fulfils n (.seek n (.current (-data.length))) result h' →
      result = .ok (.number h.resources.store.size) ∧
        h'.resources.store = (h.run evs).resources.store ∧
        ∀ result' h'', h'.Fulfils n (.read n data.length) result' h'' →
          result' = .ok (.bytes data) ∧ h''.resources.store = (h.run evs).resources.store
  /-- A free lock keeps neither of them waiting. -/
  prompt : let data := h.written n evs
    (h.run evs).resources.lock = {} →
    ∃ h' h'', (h.run evs).Fulfils n (.seek n (.current (-data.length)))
        (.ok (.number h.resources.store.size)) h' ∧
      h'.Fulfils n (.read n data.length) (.ok (.bytes data)) h''

/-- Whatever a handle writes at the end, cut into writes in any way, is there to be read when its
last line is complete and there is room for its lines. -/
theorem writes_read_back (hs : h.resources.store.Sound) (hn : n < h.resources.handles.length)
    (hd : h.resources.owner n < h.resources.devices.length)
    (hp : (h.resources.device (h.resources.owner n)).pending = [])
    (hc : (h.resources.handle n).cursor = h.resources.store.size)
    (hw : h.Throughout (Deed.LeavesWriting n) evs)
    (hlast : (h.written n evs).getLast? = some newline)
    (hroom : (h.written n evs).count newline ≤
      h.resources.store.capacity - h.resources.store.count) : h.ReadsBack n evs := by
  have hk : h.resources.store.Keeps ((h.written n evs).lines.map Record.mk) := by
    obtain ⟨rs, hrs⟩ := hs
    have hfits := hrs.fits
    rw [hrs.count_eq] at hroom
    rw [hrs.keeps_iff, List.length_map, Bytes.length_lines]
    omega
  have ha := run_advanced hn hd hs hp hc hk hw
  have hs' := sound_run hs evs
  have hn' : n < (h.run evs).resources.handles.length := by rwa [length_handles_run]
  have hrest := Bytes.unfinished_eq_nil hlast
  have hcontent : (h.run evs).resources.store.content =
      h.resources.store.content ++ h.written n evs := by
    rw [ha.content hs hk, Bytes.flatten_lines hrest]
  have hcursor : ((h.run evs).resources.handle n).cursor = (h.run evs).resources.store.size := by
    rw [ha.cursor hs hk hc, hrest, hs'.length_content]
    rfl
  refine ⟨hcursor, hcontent, hrest ▸ ha.pending, ?_, ?_⟩
  · intro data result h' hf
    rw [← hs.length_content]
    exact hf.back hs' hn' hcursor hcontent
  · intro data hlock
    obtain ⟨result, h', hf, -, hlock'⟩ :=
      exists_fulfils hlock (.seek n (.current (-data.length))) rfl nofun
    obtain ⟨rfl, -, hread⟩ := hf.back hs' hn' hcursor hcontent
    obtain ⟨result', h'', hf', -⟩ := exists_fulfils hlock' (.read n data.length) rfl nofun
    obtain ⟨rfl, -⟩ := hread result' h'' hf'
    exact ⟨h', h'', hs.length_content ▸ hf, hf'⟩

def readied : Hub :=
  noted.run [.spawn (.errand ⟨.seek 0 (.fromEnd 0), .fresh⟩), .step 1, .step 1]

/-- Two lines in three writes, none of which is cut at a newline, and a read meanwhile. -/
def cuts : List Event :=
  [.spawn (.errand ⟨.write 0 [97], .fresh⟩), .spawn (.errand ⟨.read 0 9, .fresh⟩),
    .spawn (.errand ⟨.write 0 [98, 10, 99], .fresh⟩), .spawn (.errand ⟨.write 0 [10], .fresh⟩),
    .step 2, .step 2, .step 3, .step 3, .step 4, .step 4, .step 4, .step 5, .step 5, .step 5]

theorem cuts_read_back :
    readied.resources.store.Sound ∧ 0 < readied.resources.handles.length ∧
      readied.resources.owner 0 < readied.resources.devices.length ∧
      (readied.resources.device (readied.resources.owner 0)).pending = [] ∧
      (readied.resources.handle 0).cursor = readied.resources.store.size ∧
      readied.Throughout (Deed.LeavesWriting 0) cuts ∧
      (readied.written 0 cuts).getLast? = some newline ∧
      (readied.written 0 cuts).count newline ≤
        readied.resources.store.capacity - readied.resources.store.count ∧
      readied.ReadsBack 0 cuts ∧
      ∃ h' h'', (readied.run cuts).Fulfils 0 (.seek 0 (.current (-5))) (.ok (.number 3)) h' ∧
        h'.Fulfils 0 (.read 0 5) (.ok (.bytes [97, 98, 10, 99, 10])) h'' := by
  have hs : readied.resources.store.Sound := sound_run (sound_run desk_sound _) _
  have hn : 0 < readied.resources.handles.length := by decide
  have hd : readied.resources.owner 0 < readied.resources.devices.length := by decide
  have hp : (readied.resources.device (readied.resources.owner 0)).pending = [] := by decide
  have hc : (readied.resources.handle 0).cursor = readied.resources.store.size := by decide
  have hw : readied.Throughout (Deed.LeavesWriting 0) cuts := by decide
  have hlast : (readied.written 0 cuts).getLast? = some newline := by decide
  have hroom : (readied.written 0 cuts).count newline ≤
      readied.resources.store.capacity - readied.resources.store.count := by decide
  have hback := writes_read_back hs hn hd hp hc hw hlast hroom
  exact ⟨hs, hn, hd, hp, hc, hw, hlast, hroom, hback, hback.prompt (by decide)⟩

end Hub

end CommandLog
