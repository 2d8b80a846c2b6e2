import CommandLog.Proofs.Settings

/-! # From layers to settings

Each setting is taken from the uppermost layer that has it: the option, the document that the
command line names, or the default. Only what comes of this is checked, so that a value in the
document does no harm where an option stands above it; and there is nothing else for which the
settings are refused.
-/

namespace CommandLog

open Toml (Node Entries)

theorem bind_eq_ok_iff {ε α β : Type} {x : Except ε α} {f : α → Except ε β} {b : β} :
    x >>= f = .ok b ↔ ∃ a, x = .ok a ∧ f a = .ok b := by
  cases x <;> simp [bind, Except.bind]

/-- What is read under a name, or the default where the name does not occur. -/
inductive Toml.Entries.Gives {α : Type} (es : Entries) (key : String) (read? : Node → Option α)
    (default : α) : α → Prop where
  | entry {n : Node} {a : α} : es.lookup key = some n → read? n = some a →
      Gives es key read? default a
  | missing : es.lookup key = none → Gives es key read? default default

theorem Toml.Entries.field_eq_some_iff {α : Type} {es : Entries} {key : String}
    {read? : Node → Option α} {default a : α} :
    es.field key read? default = some a ↔ es.Gives key read? default a := by
  unfold field
  constructor
  · intro h
    split at h
    · exact .entry ‹_› h
    · obtain rfl := Option.some.inj h
      exact .missing ‹_›
  · rintro (⟨hn, ha⟩ | hn)
    · rw [hn]
      exact ha
    · rw [hn]

structure Reporting.Documented (es : Entries) (r : Reporting) : Prop where
  level : es.Gives "level" Node.string? ({} : Reporting).level r.level
  json : es.Gives "json" Node.boolean? ({} : Reporting).json r.json
  ansi : es.Gives "ansi" Node.boolean? ({} : Reporting).ansi r.ansi

theorem Reporting.ofEntries?_eq_some_iff {es : Entries} {r : Reporting} :
    Reporting.ofEntries? es = some r ↔ r.Documented es := by
  simp only [ofEntries?, Option.bind_eq_bind, Option.bind_eq_some_iff,
    Toml.Entries.field_eq_some_iff]
  constructor
  · rintro ⟨level, hl, json, hj, ansi, ha, he⟩
    obtain rfl := Option.some.inj he
    exact ⟨hl, hj, ha⟩
  · rintro ⟨hl, hj, ha⟩
    exact ⟨_, hl, _, hj, _, ha, rfl⟩

theorem Reporting.documented_of_gives {es below : Entries} {default r : Reporting}
    (hr : es.Gives "log" Reporting.ofNode? default r)
    (htable : es.lookup "log" = some (.inline below) ∨
      ∃ origin, es.lookup "log" = some (.table origin below)) : r.Documented below := by
  cases hr with
  | entry hn hread =>
    apply Reporting.ofEntries?_eq_some_iff.1
    rcases htable with ht | ⟨origin, ht⟩ <;>
      · obtain rfl := Option.some.inj (hn.symm.trans ht)
        exact hread
  | missing hn => simp [hn] at htable

namespace Settings

structure Documented (es : Entries) (s : Settings) : Prop where
  bindAddress : es.Gives "bind_addr" Node.string? ({} : Settings).bindAddress s.bindAddress
  capacity : es.Gives "capacity" Node.natural? ({} : Settings).capacity s.capacity
  timestampSeconds : es.Gives "timestamp_interval_secs" Node.natural?
    ({} : Settings).timestampSeconds s.timestampSeconds
  backingFile : es.Gives "backing_file" (fun n => n.string?.map some)
    ({} : Settings).backingFile s.backingFile
  lockTimeout : es.Gives "lock_timeout_ms" (fun n => n.natural?.map UInt64.ofNat)
    ({} : Settings).lockTimeoutMilliseconds s.lockTimeoutMilliseconds
  shutdownGrace : es.Gives "shutdown_grace_ms" (fun n => n.natural?.map UInt64.ofNat)
    ({} : Settings).shutdownGraceMilliseconds s.shutdownGraceMilliseconds
  initialBufferSize : es.Gives "initial_buffer_size" Node.natural?
    ({} : Settings).initialBufferSize s.initialBufferSize
  recordLimit : es.Gives "max_record_len" (fun n => n.natural?.map some)
    ({} : Settings).recordLimit s.recordLimit
  reporting : es.Gives "log" Reporting.ofNode? ({} : Settings).reporting s.reporting
  /-- A table under this name is read like the document itself. -/
  reportingEntries {below : Entries} : es.lookup "log" = some (.inline below) ∨
    (∃ origin, es.lookup "log" = some (.table origin below)) → s.reporting.Documented below

variable {es : Entries} {s s' : Settings}

theorem ofEntries?_eq_some_iff : ofEntries? es = some s ↔ s.Documented es := by
  simp only [ofEntries?, Option.bind_eq_bind, Option.bind_eq_some_iff,
    Toml.Entries.field_eq_some_iff]
  constructor
  · rintro ⟨bindAddress, hb, capacity, hc, seconds, hs, file, hf, timeout, ht, grace, hg, size, hi,
      limit, hl, reporting, hr, he⟩
    obtain rfl := Option.some.inj he
    refine ⟨hb, hc, hs, hf, ht, hg, hi, hl, hr, ?_⟩
    intro below htable
    exact Reporting.documented_of_gives hr htable
  · rintro ⟨hb, hc, hs, hf, ht, hg, hi, hl, hr, -⟩
    exact ⟨_, hb, _, hc, _, hs, _, hf, _, ht, _, hg, _, hi, _, hl, _, hr, rfl⟩

theorem ofText_eq_ok_iff {text : String} : ofText text = .ok s ↔
    ∃ es, Toml.Document.parse? text = some es ∧ s.Documented es := by
  simp only [← ofEntries?_eq_some_iff, ← Option.bind_eq_some_iff]
  unfold ofText
  split
  case h_1 s' hs => simp [hs]
  case h_2 hs => simp [hs]

theorem load_eq_ok_iff {t : FileTree} {path : Path} : load t path = .ok s ↔
    ∃ bs text es, t.read path = .ok bs ∧ String.fromUTF8? ⟨bs.toArray⟩ = some text ∧
      Toml.Document.parse? text = some es ∧ s.Documented es := by
  constructor
  · intro h
    unfold load at h
    split at h
    · cases h
    case h_2 bs hread =>
      split at h
      case h_1 text htext =>
        obtain ⟨es, hparse, hes⟩ := ofText_eq_ok_iff.1 h
        exact ⟨bs, text, es, hread, htext, hparse, hes⟩
      · cases h
  · rintro ⟨bs, text, es, hread, htext, hparse, hes⟩
    simp only [load, hread, htext]
    exact ofText_eq_ok_iff.2 ⟨es, hparse, hes⟩

theorem socketAddress_eq_ok_iff {a : SocketAddress} :
    s.socketAddress = .ok a ↔ SocketAddress.ofText? s.bindAddress = some a := by
  unfold socketAddress
  cases SocketAddress.ofText? s.bindAddress <;> simp

theorem validate_eq_ok_iff : s.validate = .ok () ↔ s.capacity ≠ 0 ∧
    (∃ a, SocketAddress.ofText? s.bindAddress = some a) ∧ s.recordLimit ≠ some 0 := by
  cases ha : SocketAddress.ofText? s.bindAddress with
  | some a =>
    rw [validate_of_some s ha]
    split
    case isTrue hc => simp [hc]
    case isFalse hc => split <;> simp_all
  | none =>
    have hno : s.validate ≠ .ok () := by
      rw [validate, socketAddress, ha]
      split <;> intro h <;> cases h
    simp [hno]

end Settings

namespace CommandLine

variable {c : CommandLine} {t : FileTree} {s s' : Settings}

/-- The settings below the options: the defaults, or those of the document that is named. -/
inductive Below (c : CommandLine) (t : FileTree) : Settings → Prop where
  | defaults : c.config = none → Below c t {}
  | document {path text : String} {bs : Bytes} {es : Entries} {s : Settings} :
      c.config = some path → t.read ⟨path⟩ = .ok bs →
      String.fromUTF8? ⟨bs.toArray⟩ = some text → Toml.Document.parse? text = some es →
      s.Documented es → Below c t s

theorem base_eq_ok_iff : c.base t = .ok s ↔ c.Below t s := by
  constructor
  · intro h
    unfold base at h
    split at h
    case h_1 path hpath =>
      obtain ⟨bs, text, es, hread, htext, hparse, hes⟩ := Settings.load_eq_ok_iff.1 h
      exact .document hpath hread htext hparse hes
    case h_2 hnone =>
      obtain rfl := Except.ok.inj h
      exact .defaults hnone
  · rintro (hnone | ⟨hpath, hread, htext, hparse, hes⟩)
    · rw [base, hnone]
    · rw [base, hpath]
      exact Settings.load_eq_ok_iff.2 ⟨_, _, _, hread, htext, hparse, hes⟩

theorem Below.unique (hs : c.Below t s) (hs' : c.Below t s') : s = s' :=
  Except.ok.inj ((base_eq_ok_iff.2 hs).symm.trans (base_eq_ok_iff.2 hs'))

def finalAddress (c : CommandLine) (s : Settings) (a : SocketAddress) : String :=
  c.portNumber.elim (c.address s) fun p => (a.withPortNumber p).text

theorem ofText?_finalAddress {a : SocketAddress}
    (ha : SocketAddress.ofText? (c.address s) = some a) :
    SocketAddress.ofText? (c.finalAddress s a) = some (c.portNumber.elim a a.withPortNumber) := by
  unfold finalAddress
  cases c.portNumber with
  | none => exact ha
  | some p => exact (a.withPortNumber p).ofText?_text

theorem overrideAddress_of_some {a : SocketAddress}
    (ha : SocketAddress.ofText? (c.address s) = some a) :
    c.overrideAddress s = .ok { s with bindAddress := c.finalAddress s a } := by
  unfold overrideAddress finalAddress
  cases hp : c.portNumber with
  | none =>
    rw [rebind, hp]
    rfl
  | some p => exact rebind_eq (s := { s with bindAddress := c.address s }) hp ha

/-- Nothing is wrong with settings once the options are laid over them, and this is their address,
but for its endpoint number. -/
structure Accepted (c : CommandLine) (s : Settings) (a : SocketAddress) : Prop where
  address : SocketAddress.ofText? (c.address s) = some a
  capacity : c.capacity.getD s.capacity ≠ 0
  recordLimit : s.recordLimit ≠ some 0

/-- An address that cannot be read is noticed, by the new endpoint number or by the check. -/
theorem address_of_validate {s₁ : Settings} (h : c.overrideAddress s = .ok s₁)
    (hv : (c.overrideRest s₁).validate = .ok ()) :
    ∃ a, SocketAddress.ofText? (c.address s) = some a := by
  change c.rebind { s with bindAddress := c.address s } = _ at h
  unfold rebind at h
  split at h
  case h_1 p hp =>
    obtain ⟨a, ha, -⟩ := bind_eq_ok_iff.1 h
    rw [Settings.socketAddress_eq_ok_iff] at ha
    exact ⟨a, ha⟩
  case h_2 hp =>
    obtain rfl := Except.ok.inj h
    exact (Settings.validate_eq_ok_iff.1 hv).2.1

theorem settings_eq_ok_iff : c.settings t = .ok s' ↔
    ∃ s a, c.Below t s ∧ c.Accepted s a ∧ s' = c.withAddress s (c.finalAddress s a) := by
  constructor
  · intro h
    obtain ⟨s, hs, hrest⟩ := bind_eq_ok_iff.1 h
    obtain ⟨s₁, hs₁, hrest⟩ := bind_eq_ok_iff.1 hrest
    obtain ⟨⟨⟩, hv, -⟩ := bind_eq_ok_iff.1 hrest
    obtain ⟨a, ha⟩ := address_of_validate hs₁ hv
    rw [settings_eq hs (overrideAddress_of_some ha) (ofText?_finalAddress ha)] at h
    split at h
    · cases h
    case isFalse hc =>
      split at h
      · cases h
      case isFalse hl =>
        exact ⟨s, a, base_eq_ok_iff.1 hs, ⟨ha, hc, hl⟩, (Except.ok.inj h).symm⟩
  · rintro ⟨s, a, hs, ⟨ha, hc, hl⟩, rfl⟩
    rw [settings_eq (base_eq_ok_iff.2 hs) (overrideAddress_of_some ha) (ofText?_finalAddress ha),
      if_neg hc, if_neg hl]

structure Layered (c : CommandLine) (s s' : Settings) : Prop where
  /-- Only the endpoint number is not taken as it stands. -/
  bindAddress : c.portNumber = none → s'.bindAddress = c.bind.getD s.bindAddress
  host : ∃ a, SocketAddress.ofText? (c.bind.getD s.bindAddress) = some a ∧
    SocketAddress.ofText? s'.bindAddress = some (c.portNumber.elim a a.withPortNumber)
  capacity : s'.capacity = c.capacity.getD s.capacity
  timestampSeconds : s'.timestampSeconds = c.timestampSeconds.getD s.timestampSeconds
  backingFile : s'.backingFile = if c.backingFile.isSome then c.backingFile else s.backingFile
  level : s'.reporting.level = c.logLevel.getD s.reporting.level
  json : s'.reporting.json = if c.jsonLogs then true else s.reporting.json
  ansi : s'.reporting.ansi = s.reporting.ansi
  lockTimeout : s'.lockTimeoutMilliseconds = s.lockTimeoutMilliseconds
  shutdownGrace : s'.shutdownGraceMilliseconds = s.shutdownGraceMilliseconds
  initialBufferSize : s'.initialBufferSize = s.initialBufferSize
  recordLimit : s'.recordLimit = s.recordLimit

theorem layered_withAddress {a : SocketAddress}
    (ha : SocketAddress.ofText? (c.address s) = some a) :
    c.Layered s (c.withAddress s (c.finalAddress s a)) where
  bindAddress hp := by
    change c.finalAddress s a = _
    rw [finalAddress, hp]
    rfl
  host := ⟨a, ha, ofText?_finalAddress ha⟩
  capacity := rfl
  timestampSeconds := rfl
  backingFile := by
    change (c.backingFile <|> s.backingFile) = _
    cases c.backingFile <;> rfl
  level := rfl
  json := by
    change (c.jsonLogs || s.reporting.json) = _
    cases c.jsonLogs <;> rfl
  ansi := rfl
  lockTimeout := rfl
  shutdownGrace := rfl
  initialBufferSize := rfl
  recordLimit := rfl

/-- Settings come about exactly where those below the options can be read and nothing is wrong with
them once the options are laid over them. Each setting is then from the uppermost layer that has it,
and a store of the capacity can be made. -/
theorem settings_layered (c : CommandLine) (t : FileTree) :
    ((∃ s', c.settings t = .ok s') ↔ ∃ s a, c.Below t s ∧ c.Accepted s a) ∧
      ∀ s s', c.Below t s → c.settings t = .ok s' →
        c.Layered s s' ∧ Store.ofCapacity s'.capacity = .ok (.empty s'.capacity) := by
  refine ⟨⟨?_, ?_⟩, ?_⟩
  · rintro ⟨s', h⟩
    obtain ⟨s, a, hs, ha, -⟩ := settings_eq_ok_iff.1 h
    exact ⟨s, a, hs, ha⟩
  · rintro ⟨s, a, hs, ha⟩
    exact ⟨_, settings_eq_ok_iff.2 ⟨s, a, hs, ha, rfl⟩⟩
  · intro s s' hs h
    obtain ⟨s₁, a, hs₁, ha, rfl⟩ := settings_eq_ok_iff.1 h
    obtain rfl := hs.unique hs₁
    exact ⟨layered_withAddress ha.address, if_neg ha.capacity⟩

/-- A document that no service could use, which options make good. -/
def faulty : String :=
  "capacity = 0\nbind_addr = \"nowhere\"\nlog.json = true\n"

def repaired : CommandLine :=
  { config := some "/etc/log.toml", bind := some "[::1]:80", portNumber := some 9001,
    capacity := some 3 }

def faultyTree : FileTree :=
  { FileTree.standard.add ["etc", "log.toml"] (.file 0) with contents := [Bytes.ofAscii faulty] }

def faultySettings : Settings :=
  { capacity := 0, bindAddress := "nowhere", reporting := { json := true } }

theorem repaired_below : repaired.Below faultyTree faultySettings := by
  have hread : faultyTree.read ⟨"/etc/log.toml"⟩ = .ok (Bytes.ofAscii faulty) := rfl
  have htext : String.fromUTF8? ⟨(Bytes.ofAscii faulty).toArray⟩ = some faulty := by
    decide +kernel
  have hparse : (Toml.Document.parse? faulty).bind Settings.ofEntries? =
      some faultySettings := by
    decide +kernel
  obtain ⟨es, hes, hs⟩ := Option.bind_eq_some_iff.1 hparse
  exact .document rfl hread htext hes (Settings.ofEntries?_eq_some_iff.1 hs)

/-- The options make the document usable, with the new endpoint number at their own host. -/
theorem settings_layered_repaired : ∃ s s', repaired.Below faultyTree s ∧
    s.capacity = 0 ∧ SocketAddress.ofText? s.bindAddress = none ∧
    repaired.settings faultyTree = .ok s' ∧ repaired.Layered s s' ∧
    Store.ofCapacity s'.capacity = .ok (.empty s'.capacity) := by
  have haccepted : repaired.Accepted faultySettings
      (.v6 (.ofList [0, 0, 0, 0, 0, 0, 0, 1]) 0 80) := ⟨by decide, by decide, by decide⟩
  obtain ⟨s', hs'⟩ := (settings_layered repaired faultyTree).1.2 ⟨_, _, repaired_below, haccepted⟩
  obtain ⟨hlayered, hstore⟩ := (settings_layered repaired faultyTree).2 _ _ repaired_below hs'
  exact ⟨_, s', repaired_below, rfl, by decide, hs', hlayered, hstore⟩

end CommandLine

end CommandLog
