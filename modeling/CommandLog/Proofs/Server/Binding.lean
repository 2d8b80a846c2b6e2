import CommandLog.Proofs.Server.Change
import CommandLog.Proofs.Transcript.Opening

/-! # Binding that fails

The address of a server is taken after its transcript was opened. So settings that are refused and a
transcript that cannot be opened leave the file of the transcript alone, while an address that
cannot be taken leaves an empty file, whosever it was.
-/

namespace CommandLog

theorem error_of_bind {ε α β : Type} {x : Except ε α} {f : α → Except ε β} {e : ε}
    (h : (x >>= f) = .error e) : x = .error e ∨ ∃ a, x = .ok a ∧ f a = .error e := by
  cases x with
  | error => exact .inl (congrArg _ (Except.error.inj h))
  | ok a => exact .inr ⟨a, rfl, h⟩

namespace Settings

variable {s : Settings} {e : ServiceError}

theorem exists_of_socketAddress_error (h : s.socketAddress = .error e) :
    ∃ cause, e = .settings cause := by
  unfold socketAddress at h
  split at h
  case h_1 => cases h
  case h_2 => exact ⟨_, (Except.error.inj h).symm⟩

theorem exists_of_validate_error (h : s.validate = .error e) : ∃ cause, e = .settings cause := by
  unfold validate at h
  by_cases hc : s.capacity = 0
  · rw [if_pos hc] at h
    exact ⟨_, (Except.error.inj h).symm⟩
  · rw [if_neg hc] at h
    obtain ha | ⟨a, -, h⟩ := error_of_bind h
    · exact exists_of_socketAddress_error ha
    · split at h
      case isTrue => exact ⟨_, (Except.error.inj h).symm⟩
      case isFalse => cases h

end Settings

namespace Server

variable {s : Settings} {h : Host} {t t' : FileTree} {dial : Nat → ZonedTime} {e : ServiceError}
  {path : String}

/-- How far binding came before it failed, with the files at that point. -/
inductive Failure (s : Settings) (h : Host) (t : FileTree) : ServiceError → FileTree → Prop where
  | plan {e : ServiceError} : plan s = .error e → Failure s h t e t
  | transcript {path : String} {e : ServiceError} {t' : FileTree} : s.backingFile = some path →
      Transcript.create t ⟨path⟩ = (.error e, t') → Failure s h t e t'
  | address {a : SocketAddress} {store : Store} {transcript : Option Transcript} {cause : IoError}
      {t' : FileTree} : plan s = .ok (a, store) → openTranscript s t = (.ok transcript, t') →
      h.listen a = .error cause → Failure s h t (.bind a.text cause.message) t'

theorem bind_failure (hb : bind s h t dial = (.error e, t')) : Failure s h t e t' := by
  unfold bind at hb
  split at hb
  case h_1 hplan =>
    obtain ⟨he, rfl⟩ := Prod.mk.inj hb
    obtain rfl := Except.error.inj he
    exact .plan hplan
  case h_2 a store hplan =>
    split at hb
    case h_1 hopen =>
      obtain ⟨he, rfl⟩ := Prod.mk.inj hb
      obtain rfl := Except.error.inj he
      unfold openTranscript at hopen
      split at hopen
      case h_1 => cases hopen
      case h_2 path hpath =>
        split at hopen
        case h_1 => cases hopen
        case h_2 hcreate =>
          obtain ⟨he, rfl⟩ := Prod.mk.inj hopen
          obtain rfl := Except.error.inj he
          exact .transcript hpath hcreate
    case h_2 transcript t₁ hopen =>
      obtain ⟨hlisten, rfl⟩ := Prod.mk.inj hb
      unfold listen at hlisten
      split at hlisten
      case h_1 cause hcause =>
        obtain rfl := Except.error.inj hlisten
        exact .address hplan hopen hcause
      case h_2 => cases hlisten

theorem exists_of_plan_error (hplan : plan s = .error e) :
    (∃ cause, e = .settings cause) ∨ ∃ cause, e = .log cause := by
  obtain hv | ⟨-, -, hplan⟩ := error_of_bind hplan
  · exact .inl (Settings.exists_of_validate_error hv)
  · obtain ha | ⟨a, -, hplan⟩ := error_of_bind hplan
    · exact .inl (Settings.exists_of_socketAddress_error ha)
    · split at hplan
      case h_1 => exact .inr ⟨_, (Except.error.inj hplan).symm⟩
      case h_2 => cases hplan

/-- Settings that are refused are not told as a failure of the address. -/
theorem plan_error_ne_bind (hplan : plan s = .error e) (a reason : String) :
    e ≠ .bind a reason := by
  obtain ⟨cause, rfl⟩ | ⟨cause, rfl⟩ := exists_of_plan_error hplan
  · exact nofun
  · exact nofun

theorem create_error_ne_bind {path : Path} (hc : Transcript.create t path = (.error e, t'))
    (a reason : String) : e ≠ .bind a reason := by
  unfold Transcript.create at hc
  split at hc
  case h_1 =>
    obtain ⟨he, -⟩ := Prod.mk.inj hc
    obtain rfl := Except.error.inj he
    exact nofun
  case h_2 =>
    split at hc
    case h_1 =>
      obtain ⟨he, -⟩ := Prod.mk.inj hc
      obtain rfl := Except.error.inj he
      exact nofun
    case h_2 => cases hc

/-- A transcript that was opened for a server has an empty file, the one that was there before. -/
theorem file?_of_openTranscript {transcript : Option Transcript}
    (ho : openTranscript s t = (.ok transcript, t')) (hp : s.backingFile = some path) :
    ∃ entry, t'.file? ⟨path⟩ = some (entry, []) ∧
      ∀ x, t.file? ⟨path⟩ = some x → x.1 = entry := by
  unfold openTranscript at ho
  split at ho
  case h_1 hnone => cases hnone.symm.trans hp
  case h_2 path' hpath =>
    obtain rfl := Option.some.inj (hpath.symm.trans hp)
    split at ho
    case h_1 hc =>
      obtain ⟨-, rfl⟩ := Prod.mk.inj ho
      exact ⟨_, Transcript.file?_of_create hc⟩
    case h_2 => cases ho

/-- Binding that fails leaves the file of the transcript as it was if the address was not tried, or
if the file was there and empty. When the address is at fault, there is an empty file in any
case. -/
theorem bind_error_keeps_file_iff (hb : bind s h t dial = (.error e, t'))
    (hp : s.backingFile = some path) :
    (t'.file? ⟨path⟩ = t.file? ⟨path⟩ ↔
      (∀ a reason, e ≠ .bind a reason) ∨ ∃ entry, t.file? ⟨path⟩ = some (entry, [])) ∧
    ∀ a reason, e = .bind a reason → ∃ entry, t'.file? ⟨path⟩ = some (entry, []) := by
  cases bind_failure hb with
  | plan hplan =>
    have hne := plan_error_ne_bind hplan
    exact ⟨by simp [hne], fun a reason he => absurd he (hne a reason)⟩
  | transcript hpath hcreate =>
    obtain rfl := Option.some.inj (hpath.symm.trans hp)
    have hne := create_error_ne_bind hcreate
    obtain ⟨hbefore, hafter⟩ := Transcript.file?_of_create_error hcreate
    exact ⟨by simp [hne, hbefore, hafter], fun a reason he => absurd he (hne a reason)⟩
  | address _ hopen _ =>
    obtain ⟨entry, hafter, hsame⟩ := file?_of_openTranscript hopen hp
    refine ⟨⟨fun heq => .inr ⟨entry, heq ▸ hafter⟩, ?_⟩, fun _ _ _ => ⟨entry, hafter⟩⟩
    rintro (hne | ⟨entry', hbefore⟩)
    · exact absurd rfl (hne _ _)
    · obtain rfl : entry' = entry := hsame _ hbefore
      rw [hafter, hbefore]

def scribeTree : FileTree :=
  { scribe.hub.resources.tree with contents := [[97, 10]] }

/-- A second server that wants the address and the transcript of the first changes the latter. -/
theorem bind_error_changes_file_scribe :
    bind scribe.settings scribe.host scribeTree scribe.hub.resources.dial =
      (.error (.bind scribe.address.text (IoError.os Errno.addressInUse).message),
        scribe.hub.resources.tree) ∧
    scribe.settings.backingFile = some "/tmp/log" ∧
    scribe.hub.resources.tree.file? ⟨"/tmp/log"⟩ ≠ scribeTree.file? ⟨"/tmp/log"⟩ := by
  have hb : bind scribe.settings scribe.host scribeTree scribe.hub.resources.dial =
      (.error (.bind scribe.address.text (IoError.os Errno.addressInUse).message),
        scribe.hub.resources.tree) := rfl
  have hp : scribe.settings.backingFile = some "/tmp/log" := rfl
  refine ⟨hb, hp, fun heq => ?_⟩
  obtain hne | ⟨entry, hempty⟩ := (bind_error_keeps_file_iff hb hp).1.mp heq
  · exact hne _ _ rfl
  · have hrecord : scribeTree.file? ⟨"/tmp/log"⟩ = some (.file 0, [97, 10]) := rfl
    cases hrecord.symm.trans hempty

/-- A second server that finds the address in use takes its record from the transcript of the
first. -/
theorem bind_error_takes_record :
    bind scribe.settings scribe.host scribeTree scribe.hub.resources.dial =
      (.error (.bind "0.0.0.0:9000" "Address already in use (os error 98)"),
        scribe.hub.resources.tree) ∧
    scribe.settings.backingFile = some "/tmp/log" ∧
    scribeTree.file? ⟨"/tmp/log"⟩ = some (.file 0, [97, 10]) ∧
    scribe.hub.resources.tree.file? ⟨"/tmp/log"⟩ = some (.file 0, []) := by
  have ha : scribe.address.text = "0.0.0.0:9000" := by
    simp [scribe, ofListener, SocketAddress.text, SocketAddress.render, Ipv4.render, Decimal.chars,
      Decimal.digits, Decimal.char]
  refine ⟨?_, rfl, rfl, rfl⟩
  rw [← ha]
  rfl

end Server

end CommandLog
