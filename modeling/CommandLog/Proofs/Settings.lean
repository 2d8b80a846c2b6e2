import CommandLog.Proofs.SocketAddress
import CommandLog.Settings.Layers

/-! # Overriding the endpoint number

The address of the settings, wherever it comes from, is read, given another endpoint number, and
written again. It can be read once more, with the same host and scope, so that no check fails for it
that would not have failed before; and to override it again changes nothing.
-/

namespace CommandLog

theorem SocketAddress.withPortNumber_withPortNumber (a : SocketAddress) (p q : UInt16) :
    (a.withPortNumber p).withPortNumber q = a.withPortNumber q := by
  cases a <;> rfl

theorem Settings.socketAddress_of_some {s : Settings} {a : SocketAddress}
    (h : SocketAddress.ofText? s.bindAddress = some a) : s.socketAddress = .ok a := by
  simp [socketAddress, h]

theorem Settings.validate_of_some (s : Settings) {a : SocketAddress}
    (h : SocketAddress.ofText? s.bindAddress = some a) : s.validate =
      if s.capacity = 0 then .error (.settings .zeroCapacity)
      else if s.recordLimit = some 0 then .error (.settings .zeroRecordLimit) else .ok () := by
  rw [validate, socketAddress_of_some h]
  split
  · rfl
  · split <;> rfl

namespace CommandLine

variable {c : CommandLine} {t : FileTree} {s : Settings} {a : SocketAddress} {p : UInt16}

/-- The address that is named by its option, or else below the options. -/
def address (c : CommandLine) (s : Settings) : String :=
  c.bind.getD s.bindAddress

def withAddress (c : CommandLine) (s : Settings) (address : String) : Settings :=
  { c.overrideRest s with bindAddress := address }

/-- Settings that have a proper address are refused for nothing else than before. -/
theorem settings_eq {text : String} (hs : c.base t = .ok s)
    (ho : c.overrideAddress s = .ok { s with bindAddress := text })
    (ha : SocketAddress.ofText? text = some a) : c.settings t =
      if c.capacity.getD s.capacity = 0 then .error (.settings .zeroCapacity)
      else if s.recordLimit = some 0 then .error (.settings .zeroRecordLimit)
      else .ok (c.withAddress s text) := by
  have hv := (c.withAddress s text).validate_of_some ha
  have hsettings : c.settings t = (c.withAddress s text).validate >>= fun _ =>
      .ok (c.withAddress s text) := by
    rw [settings, hs]
    change (c.overrideAddress s >>= _) = _
    rw [ho]
    rfl
  rw [hsettings, hv]
  unfold withAddress overrideRest
  dsimp only
  split
  · rfl
  · split <;> rfl

theorem rebind_eq (hp : c.portNumber = some p)
    (ha : SocketAddress.ofText? s.bindAddress = some a) :
    c.rebind s = .ok { s with bindAddress := (a.withPortNumber p).text } := by
  rw [rebind, hp]
  dsimp only
  rw [Settings.socketAddress_of_some ha]
  rfl

structure Rebinds (c : CommandLine) (t : FileTree) (s : Settings) (a : SocketAddress)
    (p : UInt16) (text : String) : Prop where
  /-- The result has the address with the new number; only its capacity and its record limit can
  be refused. -/
  outcome : c.settings t =
    if c.capacity.getD s.capacity = 0 then .error (.settings .zeroCapacity)
    else if s.recordLimit = some 0 then .error (.settings .zeroRecordLimit)
    else .ok (c.withAddress s text)
  address : SocketAddress.ofText? text = some (a.withPortNumber p)
  others : { c with portNumber := none }.settings t =
    (c.settings t).map fun s' => { s' with bindAddress := c.address s }
  /-- The same override changes nothing any more. -/
  again : c.rebind (c.withAddress s text) = .ok (c.withAddress s text)
  /-- Nor does it where the new address is given as the address to begin with. -/
  repeated : { c with bind := some text }.settings t = c.settings t

/-- A new endpoint number is given to every proper address and refused for every other. -/
theorem settings_of_portNumber (hs : c.base t = .ok s) (hp : c.portNumber = some p) :
    (∀ a, SocketAddress.ofText? (c.address s) = some a →
      c.Rebinds t s a p (a.withPortNumber p).text) ∧
    (SocketAddress.ofText? (c.address s) = none →
      c.settings t = .error (.settings (.invalidAddress (c.address s)))) := by
  constructor
  · intro a ha
    have hread := (a.withPortNumber p).ofText?_text
    have hrebind : c.overrideAddress s = .ok { s with bindAddress := (a.withPortNumber p).text } :=
      rebind_eq (s := { s with bindAddress := c.address s }) hp ha
    have houtcome := settings_eq hs hrebind hread
    have hagain : ∀ (c' : CommandLine) (s' : Settings), c'.portNumber = some p →
        s'.bindAddress = (a.withPortNumber p).text → c'.rebind s' = .ok s' := by
      rintro c' s' hp' hs'
      rw [rebind_eq hp' (hs' ▸ hread), SocketAddress.withPortNumber_withPortNumber, ← hs']
    refine ⟨houtcome, hread, ?_, hagain c _ hp rfl, ?_⟩
    · have hsame := settings_eq (c := { c with portNumber := none }) (t := t) hs rfl ha
      rw [hsame, houtcome]
      dsimp only
      split
      · rfl
      · split <;> rfl
    · have hsame := settings_eq (c := { c with bind := some (a.withPortNumber p).text }) (t := t) hs
        (hagain _ { s with bindAddress := (a.withPortNumber p).text } hp rfl) hread
      exact hsame.trans houtcome.symm
  · intro ha
    have haddress : { s with bindAddress := c.address s }.socketAddress =
        .error (.settings (.invalidAddress (c.address s))) := by
      simp [Settings.socketAddress, ha]
    rw [settings, hs]
    change (c.rebind { s with bindAddress := c.address s } >>= _) = _
    rw [rebind, hp]
    dsimp only
    rw [haddress]
    rfl

/-- The default address with another endpoint number. -/
theorem settings_of_portNumber_default :
    ({ portNumber := some 9001 } : CommandLine).base .standard = .ok {} ∧
      ({ portNumber := some 9001 } : CommandLine).portNumber = some 9001 ∧
      SocketAddress.ofText? "0.0.0.0:9000" = some (.v4 ⟨0, 0, 0, 0⟩ 9000) ∧
      ({ portNumber := some 9001 } : CommandLine).Rebinds .standard {} (.v4 ⟨0, 0, 0, 0⟩ 9000) 9001
        (SocketAddress.text (.v4 ⟨0, 0, 0, 0⟩ 9001)) := by
  have ha : SocketAddress.ofText? "0.0.0.0:9000" = some (.v4 ⟨0, 0, 0, 0⟩ 9000) := by decide
  exact ⟨rfl, rfl, ha, (settings_of_portNumber rfl rfl).1 _ ha⟩

end CommandLine

end CommandLog
