import CommandLog.Proofs.Device.Stream
import CommandLog.Proofs.Hub.Aside
import CommandLog.Proofs.Transcript.Copying

/-! # Waits given up

An operation that does not get the lock in time has found it taken when it asked. While it waits,
everyone else goes on as if it had not asked, but that it stands in the queue; once it has given up,
it is as if it had been dropped before it asked. Nothing that it did shows in the log.
-/

namespace CommandLog.Hub

variable {h : Hub} {ev : Event} {evs p : List Event} {x : TaskId} {e e' : Errand}

structure Underway (h : Hub) (x : TaskId) (op : Operation) (p : List Event) : Prop where
  begins : h.errand? x = some ⟨op, .fresh⟩
  continues : ∀ q, q <+: p → ∃ e, (h.run q).errand? x = some e ∧ e.operation = op ∧ e.Open

/-- Nothing that concerns the task changes the store, what is pending, a cursor or the
transcript. -/
def Quiet (h : Hub) (x : TaskId) (evs : List Event) : Prop :=
  ∀ earlier ev later, evs = earlier ++ ev :: later → ev.task? = some x →
    ((h.run earlier).next ev).resources.ledger = (h.run earlier).resources.ledger ∧
      ((h.run earlier).next ev).resources.file = (h.run earlier).resources.file

theorem quiet_nil (h : Hub) (x : TaskId) : h.Quiet x [] := by
  rintro earlier ev later he
  cases earlier <;> cases he

theorem Quiet.concat (hq : h.Quiet x evs)
    (hev : ev.task? = some x →
      ((h.run evs).next ev).resources.ledger = (h.run evs).resources.ledger ∧
        ((h.run evs).next ev).resources.file = (h.run evs).resources.file) :
    h.Quiet x (evs ++ [ev]) :=
  forall_split_concat.mpr ⟨hq, hev⟩

theorem Unasked.passes (he : h.errand? x = some e) (hu : e.Unasked)
    (he' : (h.next ev).errand? x = some e') :
    (e'.Unasked ∧ (ev.task? = some x →
      (h.next ev).resources.ledger = h.resources.ledger ∧
        (h.next ev).resources.file = h.resources.file)) ∨
    (ev = .step x ∧ (h.next ev).resources = h.resources.request x ∧
      (e.stage = .gathering → e.operation.needsStore = true) ∧
      ∃ deadline, e' = { e with stage := .queued deadline }) ∨
    e'.stage = .killed ∨ e'.stage = .finished (e.operation.act h.resources).1 := by
  have hpass := (h.next_result ev).passes he
  rw [he'] at hpass
  generalize hn : (h.next ev).resources = r' at hpass ⊢
  cases hpass with
  | aside hx => exact .inl ⟨hu, fun h => absurd h hx⟩
  | idle => exact .inl ⟨hu, fun _ => ⟨rfl, rfl⟩⟩
  | move m =>
    cases m with
    | gather =>
      exact .inl ⟨.inr rfl, fun _ => ⟨h.resources.ledger_modifyDevice _ fun _ => rfl, rfl⟩⟩
    | queue _ _ hneeds => exact .inr (.inl ⟨rfl, rfl, hneeds, _, rfl⟩)
    | collect => exact .inr (.inr (.inr rfl))
    | hold hst | tick hst | act hst | expired hst | copy hst =>
      rcases hu with hu | hu <;> cases hu.symm.trans hst
  | kill _ hk =>
    obtain rfl := hk e' rfl
    exact .inr (.inr (.inl rfl))
  | letGo hst => rcases hu with hu | hu <;> cases hu.symm.trans hst

/-- How far an operation has come that has no result yet. -/
inductive Course (h : Hub) (x : TaskId) (p : List Event) : Prop where
  | asking {e : Errand} : (h.run p).errand? x = some e → e.Unasked → h.Quiet x p → Course h x p
  | waiting {before wait : List Event} : p = before ++ .step x :: wait →
      (h.run before).resources.lock.holder ≠ none →
      ((h.run before).next (.step x)).resources = (h.run before).resources.request x →
      (∀ w, w <+: wait → (h.run before).Waits x w) → h.Quiet x p → Course h x p
  | sure {e : Errand} : (h.run p).errand? x = some e → e.Sure x (h.run p).resources →
      Course h x p

theorem Course.step (hc : h.Course x p)
    (hs : (h.run p).resources.lock.Serves (h.run p).stake)
    (he : (h.run p).errand? x = some e) (ho : e.Open)
    (he' : (h.run (p ++ [ev])).errand? x = some e') (ho' : e'.Open) : h.Course x (p ++ [ev]) := by
  have hnext : ((h.run p).next ev).errand? x = some e' := run_concat h p ev ▸ he'
  cases hc with
  | asking hea hu hq =>
    obtain rfl := Option.some.inj (hea.symm.trans he)
    rcases Unasked.passes he hu hnext with
      ⟨hu', hquiet⟩ | ⟨rfl, hr, hneeds, deadline, rfl⟩ | hk | hf
    · exact .asking he' hu' (hq.concat hquiet)
    · by_cases hfree : (h.run p).resources.lock.holder = none
      · refine .sure he' (.inr (.inr ⟨rfl, ?_⟩))
        rw [run_concat, hr]
        simp [Resources.request, FairLock.request, hfree]
      · have hq' : h.Quiet x (p ++ [.step x]) := hq.concat fun _ => by rw [hr]; exact ⟨rfl, rfl⟩
        refine .waiting rfl hfree hr (fun w hw => ?_) hq'
        obtain rfl := List.prefix_nil.mp hw
        exact waits_nil hs he hu hneeds hnext hr hfree
    · exact .sure he' (.inl hk)
    · exact absurd hf (ho' _)
  | @waiting before wait hp hfree hask hw hq =>
    have hrun : h.run p = (h.run before).run (.step x :: wait) := by rw [hp, run_append]
    have hwait := hw wait List.prefix_rfl
    rw [hrun] at hs hnext
    rcases hwait.passes hs hnext with ⟨hwait', -, hsame⟩ | hsure | ⟨-, hover, -⟩
    · have hp' : p ++ [ev] = before ++ .step x :: (wait ++ [ev]) := by simp [hp]
      refine .waiting hp' hfree hask (fun w hpre => ?_) (hq.concat fun hx => ?_)
      · rcases List.prefix_concat_iff.mp hpre with rfl | hpre
        · exact hwait'
        · exact hw w hpre
      · rw [hrun, hsame hx]
        exact ⟨rfl, rfl⟩
    · refine .sure he' ?_
      rwa [run_concat, hrun]
    · exact absurd ho' hover
  | sure hea hsure =>
    obtain rfl := Option.some.inj (hea.symm.trans he)
    have hr := (h.run p).next_result ev
    have hpass := hr.passes he
    rw [hnext] at hpass
    rcases hsure.passes hpass fun hx => hr.holder hs hx with hsure' | ⟨⟨result, hf⟩, -⟩
    · refine .sure he' ?_
      rwa [run_concat]
    · exact absurd hf (ho' result)

theorem Course.gaveUp (hc : h.Course x p)
    (hs : (h.run p).resources.lock.Serves (h.run p).stake)
    (he : (h.run p).errand? x = some e) (ho : e.Open)
    (he' : (h.run (p ++ [ev])).errand? x = some e') (hg : e'.GaveUp) :
    ∃ before wait e₀, p = before ++ .step x :: wait ∧ ev = .step x ∧
      (h.run before).resources.lock.holder ≠ none ∧
      ((h.run before).next (.step x)).resources = (h.run before).resources.request x ∧
      (∀ w, w <+: wait → (h.run before).Waits x w) ∧ h.Quiet x p ∧
      (h.run before).errand? x = some e₀ ∧ e₀.Unasked ∧
      ((h.run p).next ev).resources = e₀.leaveDevice x ((h.run p).resources.withdraw x) := by
  have hnext : ((h.run p).next ev).errand? x = some e' := run_concat h p ev ▸ he'
  obtain ⟨cause, hf⟩ := hg
  cases hc with
  | asking hea hu hq =>
    obtain rfl := Option.some.inj (he.symm.trans hea)
    rcases Unasked.passes he hu hnext with ⟨hu', -⟩ | ⟨-, -, -, deadline, rfl⟩ | hk | ha
    · exact absurd hf (hu'.open _)
    · cases hf
    · cases hk.symm.trans hf
    · exact absurd (Errand.Stage.finished.inj (ha.symm.trans hf))
        (e.operation.act_ne_lockUnavailable _ cause)
  | @waiting before wait hp hfree hask hw hq =>
    have hrun : h.run p = (h.run before).run (.step x :: wait) := by rw [hp, run_append]
    have hwait := hw wait List.prefix_rfl
    rw [hrun] at hs hnext ⊢
    rcases hwait.passes hs hnext with ⟨-, ho', -⟩ | hsure | ⟨rfl, -, e₀, he₀, hu, hr⟩
    · exact absurd hf (ho' _)
    · exact absurd ⟨cause, hf⟩ hsure.not_gaveUp
    · exact ⟨before, wait, e₀, hp, rfl, hfree, hask, hw, hq, he₀, hu, hr⟩
  | sure hea hsure =>
    obtain rfl := Option.some.inj (hea.symm.trans he)
    have hr := (h.run p).next_result ev
    have hpass := hr.passes he
    rw [hnext] at hpass
    rcases hsure.passes hpass fun hx => hr.holder hs hx with hsure' | ⟨-, hng⟩
    · exact absurd ⟨cause, hf⟩ hsure'.not_gaveUp
    · exact absurd ⟨cause, hf⟩ hng

theorem Underway.course {op : Operation} (hu : h.Underway x op p)
    (hs : h.resources.lock.Serves h.stake) (hp : ∀ ev ∈ p, ev.Proper) : h.Course x p := by
  induction p using List.reverseRecOn with
  | nil => exact .asking hu.begins (.inl rfl) (quiet_nil h x)
  | append_singleton p ev ih =>
    obtain ⟨e, he, -, ho⟩ := hu.continues p (List.prefix_append p [ev])
    obtain ⟨e', he', -, ho'⟩ := hu.continues (p ++ [ev]) List.prefix_rfl
    have hp' : ∀ ev ∈ p, ev.Proper := fun ev hm => hp ev (by simp [hm])
    have hu' : h.Underway x op p :=
      ⟨hu.begins, fun q hq => hu.continues q (hq.trans (List.prefix_append p [ev]))⟩
    exact (ih hu' hp').step (serves_run hs hp') he ho he' ho'

/-- An operation asks for the lock after some events, waits and gives up. -/
structure Retreats (h : Hub) (x : TaskId) (before wait : List Event) : Prop where
  asks : ((h.run before).next (.step x)).resources = (h.run before).resources.request x
  taken : (h.run before).resources.lock.holder ≠ none
  waits : ∀ w, w <+: wait → (h.run before).Waits x w
  quiet : h.Quiet x (before ++ .step x :: (wait ++ [.step x]))
  gone : x ∉ (h.run (before ++ .step x :: (wait ++ [.step x]))).resources.lock.line
  /-- Whatever comes later, the operation once more among it, goes as if the first attempt had been
  dropped instead of being made. -/
  afterwards : ∀ later : List Event, (∀ ev ∈ later, ev.task? ≠ some x) →
    let tried := Event.step x :: (wait ++ [.step x]) ++ later
    let dropped := others x wait ++ [.kill x] ++ later
    (h.run before).Matches x tried dropped ∧
      ((h.run before).run dropped).resources = ((h.run before).run tried).resources

/-- An operation that gives up has found the lock taken, and leaves no trace. -/
theorem Underway.retreats {op : Operation} (hu : h.Underway x op p)
    (hs : h.resources.lock.Serves h.stake) (hp : ∀ a ∈ p ++ [ev], a.Proper)
    (he' : (h.run (p ++ [ev])).errand? x = some e') (hgave : e'.GaveUp) :
    ∃ before wait, p = before ++ .step x :: wait ∧ ev = .step x ∧ h.Retreats x before wait := by
  have hp' : ∀ ev ∈ p, ev.Proper := fun ev hm => hp ev (by simp [hm])
  obtain ⟨e, he, -, ho⟩ := hu.continues p List.prefix_rfl
  obtain ⟨before, wait, e₀, rfl, rfl, htaken, hask, hw, hq, he₀, hunasked, hr⟩ :=
    (hu.course hs hp').gaveUp (serves_run hs hp') he ho he' hgave
  have hduring : before ++ .step x :: wait ++ [.step x] =
      before ++ .step x :: (wait ++ [.step x]) := by simp
  have hout : e'.stake = .out := by
    obtain ⟨cause, hf⟩ := hgave
    simp [Errand.stake, hf]
  refine ⟨before, wait, rfl, rfl, hask, htaken, hw, ?_, ?_, fun later hl => ?_⟩
  · rw [← hduring]
    refine hq.concat fun _ => ?_
    rw [hr]
    exact ⟨Errand.ledger_leaveDevice .., Errand.file_leaveDevice ..⟩
  · rw [← hduring, (serves_run hs hp).mem_line, stake_of_errand? he', hout]
    exact not_not.mpr rfl
  · rw [run_append] at hr
    obtain ⟨hm, hres⟩ := (hw wait List.prefix_rfl).gaveUp he₀ hunasked hr
    exact hm.append hres hl

/-- An operation with no result is under way since some event, and one that has given up was under
way until some event. -/
structure Traced (h : Hub) (x : TaskId) (evs : List Event) (e : Errand) : Prop where
  underway : e.Open →
    ∃ earlier p, evs = earlier ++ p ∧ (h.run earlier).Underway x e.operation p
  gaveUp : e.GaveUp → ∃ earlier p ev later, evs = earlier ++ (p ++ ev :: later) ∧
    (h.run earlier).Underway x e.operation p ∧
      ((h.run earlier).run (p ++ [ev])).errand? x = some e

theorem Underway.concat {op : Operation} (hu : h.Underway x op p)
    (he : (h.run (p ++ [ev])).errand? x = some e) (hop : e.operation = op) (ho : e.Open) :
    h.Underway x op (p ++ [ev]) where
  begins := hu.begins
  continues q hq := by
    rcases List.prefix_concat_iff.mp hq with rfl | hq
    · exact ⟨e, he, hop, ho⟩
    · exact hu.continues q hq

theorem traced_fresh (he : (h.run evs).errand? x = some e) (hf : e.stage = .fresh) :
    h.Traced x evs e where
  underway ho := by
    refine ⟨evs, [], by simp, ?_, fun q hq => ?_⟩
    · rw [he, ← hf]
    · obtain rfl := List.prefix_nil.mp hq
      exact ⟨e, he, rfl, ho⟩
  gaveUp hg := by
    obtain ⟨cause, hg⟩ := hg
    cases hf.symm.trans hg

theorem Traced.concat (ht : h.Traced x evs e) (he : (h.run evs).errand? x = some e)
    (he' : (h.run (evs ++ [ev])).errand? x = some e') (hop : e'.operation = e.operation)
    (ho : e.Open ∨ e' = e) : h.Traced x (evs ++ [ev]) e' where
  underway ho' := by
    have ho : e.Open := ho.elim id fun h => h ▸ ho'
    obtain ⟨earlier, p, rfl, hu⟩ := ht.underway ho
    rw [List.append_assoc, run_append] at he'
    exact ⟨earlier, p ++ [ev], by simp, hop ▸ hu.concat he' hop ho'⟩
  gaveUp hg := by
    rcases ho with ho | rfl
    · obtain ⟨earlier, p, rfl, hu⟩ := ht.underway ho
      rw [List.append_assoc, run_append] at he'
      exact ⟨earlier, p, ev, [], by simp, hop ▸ hu, he'⟩
    · obtain ⟨earlier, p, ev', later, rfl, h'⟩ := ht.gaveUp hg
      exact ⟨earlier, p, ev', later ++ [ev], by simp, h'⟩

theorem run_traced (hs : h.Starts) (hp : ∀ ev ∈ evs, ev.Proper)
    (he : (h.run evs).errand? x = some e) : h.Traced x evs e := by
  refine run_induction (P := fun evs => ∀ e, (h.run evs).errand? x = some e → h.Traced x evs e)
    ?_ (fun evs ev _ hev ih e' he' => ?_) hp e he
  · intro e he
    simp [run, errand?, hs.tasks] at he
  · have hr := (h.run evs).next_result ev
    have hnext : ((h.run evs).next ev).errand? x = some e' := run_concat h evs ev ▸ he'
    cases he : (h.run evs).errand? x with
    | none => exact traced_fresh he' (hr.begins hev he hnext)
    | some e =>
      have ht := ih e he
      have hpass := hr.passes he
      rw [hnext] at hpass
      generalize ((h.run evs).next ev).resources = r' at hpass
      cases hpass with
      | aside | idle => exact ht.concat he he' rfl (.inr rfl)
      | move m => exact ht.concat he he' m.deed.1 (.inl m.open)
      | kill ho hk =>
        obtain rfl := hk e' rfl
        exact ht.concat he he' rfl (.inl ho)
      | letGo hst =>
        have ho : e.Open := fun result hf => by cases hst.symm.trans hf
        exact ht.concat he he' rfl (.inl ho)

structure Traceless (h : Hub) (evs : List Event) : Prop where
  retreats : ∀ x e, (h.run evs).errand? x = some e → e.GaveUp →
    ∃ earlier before wait later,
      evs = earlier ++ (before ++ .step x :: (wait ++ .step x :: later)) ∧
        (h.run earlier).Underway x e.operation (before ++ .step x :: wait) ∧
        ((h.run earlier).run (before ++ .step x :: (wait ++ [.step x]))).errand? x = some e ∧
        (h.run earlier).Retreats x before wait
  light : ∀ x e n data, (h.run evs).errand? x = some e → e.operation = .write n data →
    newline ∉ data →
      (∀ deadline, e.stage ≠ .queued deadline) ∧
      (∀ result, e.stage = .finished result → result = .ok (.number data.length)) ∧
      (e.stage = .gathering →
        let r := (h.run evs).resources
        (r.device (r.handle n).device).lock.holder = some x →
          ∃ r', e.step? x r =
            some ({ e with stage := .finished (.ok (.number data.length)) }, r'))

theorem run_light (hs : h.Starts) (hp : ∀ ev ∈ evs, ev.Proper)
    (he : (h.run evs).errand? x = some e) : e.Light := by
  obtain ⟨t, ht, hte⟩ := Option.bind_eq_some_iff.mp he
  exact run_tasks (P := fun t => ∀ e ∈ t.errand?, e.Light) hs hp (fun _ _ hf => hf.light)
    Task.Change.light ht e hte

/-- An operation that fails for want of the lock has found it taken, and it is as if it had not
asked. -/
theorem run_traceless (hs : h.Starts) (hp : ∀ ev ∈ evs, ev.Proper) : h.Traceless evs where
  retreats x e he hg := by
    obtain ⟨earlier, p, ev, later, rfl, hu, hgave⟩ := (run_traced hs hp he).gaveUp hg
    have hp₁ : ∀ ev ∈ earlier, ev.Proper := fun ev hm => hp ev (by simp [hm])
    have hp₂ : ∀ a ∈ p ++ [ev], a.Proper := fun a hm => by
      refine hp a ?_
      rw [List.append_cons p]
      exact List.mem_append_right _ (List.mem_append_left _ hm)
    obtain ⟨before, wait, rfl, rfl, hr⟩ := hu.retreats (run_serves hs hp₁) hp₂ hgave hg
    exact ⟨earlier, before, wait, later, by simp, hu, by simpa using hgave, hr⟩
  light x e n data he ho hd := by
    have hl := run_light hs hp he
    have hstage := hl n data ho hd
    refine ⟨fun deadline hq => ?_, fun result hf => ?_, fun hg hh => ?_⟩
    · simp [hq] at hstage
    · simpa [hf] using hstage
    · exact Errand.Light.step? ho hd hg hh

/-- While the lock is held, a device write waits for it in front of an append and gives up, and a
write of no line through another device is done. The first write is made again once the lock has
been let go. -/
def attempts : List Event :=
  [.spawn (.errand ⟨.hold, .fresh⟩), .step 0, .step 0,
    .spawn (.errand ⟨.write 0 [97, 10], .fresh⟩), .step 1, .step 1,
    .spawn (.errand ⟨.append ⟨[98, 10]⟩, .fresh⟩), .step 2,
    .spawn (.errand ⟨.write 2 [99], .fresh⟩), .step 3, .step 3, .elapse 5000, .step 1, .letGo 0,
    .step 2, .spawn (.errand ⟨.write 0 [97, 10], .fresh⟩), .step 4, .step 4, .step 4]

theorem attempts_traceless :
    bench.Starts ∧ (∀ ev ∈ attempts, ev.Proper) ∧
      (bench.run attempts).errand? 1 = some ⟨.write 0 [97, 10],
        .finished (.error (.lockUnavailable (.timedOut (.ofSeconds 5))))⟩ ∧
      (bench.run attempts).errand? 3 = some ⟨.write 2 [99], .finished (.ok (.number 1))⟩ ∧
      (bench.run attempts).resources.store.toList = [⟨[98, 10]⟩, ⟨[97, 10]⟩] ∧
      bench.Traceless attempts := by
  have hp : ∀ ev ∈ attempts, ev.Proper := by
    simp [attempts, Event.Proper, Task.Fresh]
  exact ⟨bench_starts, hp, by rfl, by rfl, by rfl, run_traceless bench_starts hp⟩

end CommandLog.Hub
