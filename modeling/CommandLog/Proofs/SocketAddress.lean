import CommandLog.Proofs.Decimal
import CommandLog.SocketAddress.Parser
import CommandLog.SocketAddress.Printer

/-! # Socket addresses written and read

Every address is read back from its written form: each number ends where no digit follows, a group
is not taken for the start of a version 4 address since no dot follows it, and the groups around
`::` leave room for as many zeros as it stands for.
-/

namespace CommandLog

namespace SocketAddress

variable {base bound : Nat} {widest : Option Nat} {value? : Char → Option Nat} {cs rest : List Char}

def Ends (value? : Char → Option Nat) (rest : List Char) : Prop :=
  ∀ c ∈ rest.head?, value? c = none

theorem number?_eq_none (h : Ends value? cs) : number? base bound widest value? cs = none := by
  have ht : cs.takeWhile (fun c => (value? c).isSome) = [] := by
    cases cs with
    | nil => rfl
    | cons c cs => simp [h c rfl]
  simp [number?, ht]

theorem number?_append {char : Nat → Char} {ds : List Nat}
    (hv : ∀ d ∈ ds, value? (char d) = some d) (hne : ds ≠ []) (hw : ∀ w ∈ widest, ds.length ≤ w)
    (hb : numberOf base ds < bound) (hr : Ends value? rest) :
    number? base bound widest value? (ds.map char ++ rest) = some (numberOf base ds, rest) := by
  have hsome : ∀ c ∈ ds.map char, (value? c).isSome = true := by
    intro c hc
    obtain ⟨d, hd, rfl⟩ := List.mem_map.mp hc
    rw [hv d hd]
    rfl
  have hrest : rest.takeWhile (fun c => (value? c).isSome) = [] := by
    cases rest with
    | nil => rfl
    | cons c cs => simp [hr c rfl]
  have htake : (ds.map char ++ rest).takeWhile (fun c => (value? c).isSome) = ds.map char := by
    rw [List.takeWhile_append_of_pos hsome, hrest, List.append_nil]
  have hvalues : (ds.map char).filterMap value? = ds := by
    rw [List.filterMap_map]
    exact (List.filterMap_congr hv).trans List.filterMap_some
  have hwide : widest.any (· < ds.length) = false := by
    cases widest with
    | none => rfl
    | some w => simpa using hw w rfl
  rw [number?, htake, hvalues, if_neg (by simp [hne, hwide, hb]), List.drop_left' rfl]

theorem ofChar?_char {d : Nat} (hd : d < 10) : Decimal.ofChar? (Decimal.char d) = some d := by
  revert d
  decide

theorem hexValue?_hexDigit {d : Nat} (hd : d < 16) : hexValue? (Ipv6.hexDigit d) = some d := by
  revert d
  decide

theorem decimal?_chars {n : Nat} (hn : n < bound) (hr : Ends Decimal.ofChar? rest) :
    decimal? bound (Decimal.chars n ++ rest) = some (n, rest) := by
  have hv : ∀ d ∈ Decimal.digits n, Decimal.ofChar? (Decimal.char d) = some d :=
    fun d hd => ofChar?_char (Decimal.lt_of_mem_digits hd)
  have hnum : numberOf 10 (Decimal.digits n) = n := Decimal.ofDigits_digits n
  rw [decimal?, Decimal.chars, number?_append hv (Decimal.digits_ne_nil n) (by simp) (by rwa [hnum])
    hr, hnum]

/-- A zero in front stands alone. -/
theorem length_chars_of_head {n : Nat} (h : (Decimal.chars n ++ rest).head? = some '0') :
    (Decimal.chars n).length = 1 := by
  have hlt : ∀ d ∈ Decimal.digits n, d < 10 := fun d => Decimal.lt_of_mem_digits
  obtain ⟨d, ds, hd⟩ := List.exists_cons_of_ne_nil (Decimal.digits_ne_nil n)
  have hchar : ∀ d < 10, Decimal.char d = '0' → d = 0 := by decide
  have hzero : d = 0 := by
    rw [Decimal.chars, hd] at h
    exact hchar d (hlt d (hd ▸ List.mem_cons_self)) (Option.some.inj h)
  rw [Decimal.chars, List.length_map]
  refine (Decimal.digits_ofDigits_iff hlt (Decimal.digits_ne_nil n)).mp ?_ (by rw [hd, hzero]; rfl)
  rw [Decimal.ofDigits_digits]

theorem octet?_chars (b : UInt8) (hr : Ends Decimal.ofChar? rest) :
    octet? (Decimal.chars b.toNat ++ rest) = some (b, rest) := by
  have hv : ∀ d ∈ Decimal.digits b.toNat, Decimal.ofChar? (Decimal.char d) = some d :=
    fun d hd => ofChar?_char (Decimal.lt_of_mem_digits hd)
  have hnum : numberOf 10 (Decimal.digits b.toNat) = b.toNat := Decimal.ofDigits_digits _
  have hlt : b.toNat < 256 := b.toNat_lt_size
  have hlen := Decimal.length_digits_le_of_lt (n := b.toNat) (k := 3) (by decide) (by omega)
  have hzero : ¬ ((Decimal.chars b.toNat ++ rest).head? = some '0' ∧
      rest.length + 1 < (Decimal.chars b.toNat ++ rest).length) := by
    rintro ⟨hhead, hlong⟩
    have hone := length_chars_of_head hhead
    rw [List.length_append] at hlong
    omega
  rw [octet?, Decimal.chars, number?_append hv (Decimal.digits_ne_nil _) (by simpa using hlen)
    (by rwa [hnum]) hr, hnum]
  dsimp only
  rw [← Decimal.chars, if_neg hzero, UInt8.ofNat_toNat]

theorem ipv4?_render (ip : Ipv4) (hr : Ends Decimal.ofChar? rest) :
    ipv4? (ip.render ++ rest) = some (ip, rest) := by
  have hdot : ∀ cs, Ends Decimal.ofChar? ('.' :: cs) := by
    rintro cs c ⟨⟩
    rfl
  simp [ipv4?, Ipv4.render, octet?_chars _ (hdot _), octet?_chars _ hr, char?]

theorem numberOf_dropWhile (base : Nat) (ds es : List Nat) :
    numberOf base (ds.dropWhile (· = 0) ++ es) = numberOf base (ds ++ es) := by
  induction ds with
  | nil => rfl
  | cons d ds ih =>
    rw [List.dropWhile_cons]
    split
    case isTrue h =>
      rw [ih, show d = 0 by simpa using h]
      simp [numberOf]
    case isFalse => rfl

def groupDigits (n : Nat) : List Nat :=
  [n / 4096, n / 256 % 16, n / 16 % 16].dropWhile (· = 0) ++ [n % 16]

theorem renderGroup_eq (g : UInt16) :
    Ipv6.renderGroup g = (groupDigits g.toNat).map Ipv6.hexDigit :=
  rfl

theorem numberOf_groupDigits {n : Nat} (hn : n < 65536) : numberOf 16 (groupDigits n) = n := by
  rw [groupDigits, numberOf_dropWhile]
  simp [numberOf]
  omega

theorem lt_of_mem_groupDigits {n d : Nat} (hn : n < 65536) (hd : d ∈ groupDigits n) : d < 16 := by
  rcases List.mem_append.mp hd with hd | hd
  · have hd := (List.dropWhile_suffix _).subset hd
    simp only [List.mem_cons, List.not_mem_nil, or_false] at hd
    omega
  · have hd := List.mem_singleton.mp hd
    omega

theorem length_groupDigits_le (n : Nat) : (groupDigits n).length ≤ 4 := by
  have h := (List.dropWhile_suffix (l := [n / 4096, n / 256 % 16, n / 16 % 16]) (· = 0)).length_le
  simpa [groupDigits] using Nat.lt_succ_of_le h

theorem group?_renderGroup (g : UInt16) (hr : Ends hexValue? rest) :
    group? (Ipv6.renderGroup g ++ rest) = some (g, rest) := by
  have hlt : g.toNat < 65536 := g.toNat_lt_size
  have hv : ∀ d ∈ groupDigits g.toNat, hexValue? (Ipv6.hexDigit d) = some d :=
    fun d hd => hexValue?_hexDigit (lt_of_mem_groupDigits hlt hd)
  have hnum := numberOf_groupDigits hlt
  rw [renderGroup_eq, group?, number?_append hv (by simp [groupDigits])
    (by simpa using length_groupDigits_le _) (by rwa [hnum]) hr, hnum, Option.map_some]
  simp

theorem number?_rest {n : Nat} (h : number? base bound widest value? cs = some (n, rest)) :
    rest = cs.dropWhile fun c => (value? c).isSome := by
  simp only [number?] at h
  split at h
  case isTrue => cases h
  case isFalse =>
    obtain ⟨-, rfl⟩ := Prod.mk.inj (Option.some.inj h)
    conv_lhs => rw [← List.takeWhile_append_dropWhile (p := fun c => (value? c).isSome) (l := cs)]
    rw [List.drop_left' (by simp)]

theorem octet?_rest {b : UInt8} (h : octet? cs = some (b, rest)) :
    rest = cs.dropWhile fun c => (Decimal.ofChar? c).isSome := by
  unfold octet? at h
  split at h
  case h_1 hn =>
    split at h
    case isTrue => cases h
    case isFalse =>
      obtain ⟨-, rfl⟩ := Prod.mk.inj (Option.some.inj h)
      exact number?_rest hn
  case h_2 => cases h

theorem char?_eq_none {c : Char} (h : cs.head? ≠ some c) : char? c cs = none := by
  cases cs with
  | nil => rfl
  | cons x cs => exact if_neg fun hx => h (congrArg some hx)

/-- Without a dot after the digits a text does not begin with a version 4 address. -/
theorem ipv4?_eq_none (h : (cs.dropWhile fun c => (Decimal.ofChar? c).isSome).head? ≠ some '.') :
    ipv4? cs = none := by
  unfold ipv4?
  cases ho : octet? cs with
  | none => rfl
  | some x =>
    obtain ⟨b, rest⟩ := x
    rw [octet?_rest ho]
    simp [char?_eq_none h]

theorem ipv4?_renderGroup (g : UInt16) (hr : Ends Decimal.ofChar? rest)
    (hdot : rest.head? ≠ some '.') : ipv4? (Ipv6.renderGroup g ++ rest) = none := by
  have hmem : '.' ∉ Ipv6.renderGroup g := by
    have hdigit : ∀ d < 16, Ipv6.hexDigit d ≠ '.' := by decide
    rw [renderGroup_eq, List.mem_map]
    rintro ⟨d, hd, he⟩
    exact hdigit d (lt_of_mem_groupDigits g.toNat_lt_size hd) he
  refine ipv4?_eq_none ?_
  generalize Ipv6.renderGroup g = xs at hmem
  induction xs with
  | nil =>
    cases rest with
    | nil => simp
    | cons c rest => simpa [hr c rfl] using hdot
  | cons x xs ih =>
    rw [List.mem_cons, not_or] at hmem
    rw [List.cons_append, List.dropWhile_cons]
    split
    · exact ih hmem.2
    · simpa using Ne.symm hmem.1

/-- What follows the groups of an address and does not continue them. -/
structure Stops (rest : List Char) : Prop where
  ends : Ends hexValue? rest
  dot : rest.head? ≠ some '.'
  next : ∀ rest', rest = ':' :: rest' → Ends hexValue? rest'

theorem Ends.decimal (h : Ends hexValue? rest) : Ends Decimal.ofChar? rest := by
  intro c hc
  have h := h c hc
  unfold hexValue? at h
  unfold Decimal.ofChar?
  split at h
  case isTrue => cases h
  case isFalse hd => exact if_neg hd

theorem group?_eq_none (h : Ends hexValue? cs) : group? cs = none := by
  rw [group?, number?_eq_none h, Option.map_none]

theorem ipv4?_eq_none_of_ends (h : Ends Decimal.ofChar? cs) : ipv4? cs = none := by
  have ho : octet? cs = none := by rw [octet?, number?_eq_none h]
  rw [ipv4?, ho]
  rfl

theorem stops_colons (cs : List Char) : Stops (':' :: ':' :: cs) where
  ends := by rintro c ⟨⟩; rfl
  dot := by simp
  next := by rintro _ ⟨⟩ c ⟨⟩; rfl

theorem stops_bracket (cs : List Char) : Stops (']' :: cs) where
  ends := by rintro c ⟨⟩; rfl
  dot := by simp
  next := nofun

theorem stops_percent (cs : List Char) : Stops ('%' :: cs) where
  ends := by rintro c ⟨⟩; rfl
  dot := by simp
  next := nofun

def tailGroups (gs : List UInt16) : List Char :=
  gs.flatMap fun g => ':' :: Ipv6.renderGroup g

theorem renderGroups_cons (g : UInt16) (gs : List UInt16) :
    Ipv6.renderGroups (g :: gs) = Ipv6.renderGroup g ++ tailGroups gs := by
  induction gs generalizing g with
  | nil => simp [Ipv6.renderGroups, tailGroups]
  | cons g' gs ih =>
    have h := ih g'
    simp only [Ipv6.renderGroups, List.map_cons] at h ⊢
    rw [List.intercalate_cons_cons, h]
    simp [tailGroups]

theorem ends_tailGroups (gs : List UInt16) (h : Stops rest) :
    Ends hexValue? (tailGroups gs ++ rest) ∧ (tailGroups gs ++ rest).head? ≠ some '.' := by
  cases gs with
  | nil => exact ⟨h.ends, h.dot⟩
  | cons g gs =>
    refine ⟨?_, by simp [tailGroups]⟩
    rintro c ⟨⟩
    rfl

theorem groups_succ {room : Nat} {isFirst : Bool} {g : UInt16} (hends : Ends hexValue? rest)
    (hdot : rest.head? ≠ some '.')
    (hc : (if isFirst then some cs else char? ':' cs) = some (Ipv6.renderGroup g ++ rest)) :
    groups (room + 1) isFirst cs =
      (g :: (groups room false rest).1, (groups room false rest).2) := by
  have hv4 := ipv4?_renderGroup g hends.decimal hdot
  have hg := group?_renderGroup g hends
  rw [groups, hc]
  simp [hv4, hg]

theorem groups_stops (room : Nat) (isFirst : Bool) (h : Stops rest) :
    groups room isFirst rest = ([], false, rest) := by
  cases room with
  | zero => rfl
  | succ room =>
    have hnone : ∀ cs ∈ if isFirst then some rest else char? ':' rest, Ends hexValue? cs := by
      intro cs hcs
      split at hcs
      case isTrue => exact Option.some.inj hcs ▸ h.ends
      case isFalse =>
        unfold char? at hcs
        split at hcs
        case h_1 => cases hcs
        case h_2 =>
          split at hcs
          case isTrue hx => exact h.next cs (by rw [hx, Option.some.inj hcs])
          case isFalse => cases hcs
    rw [groups]
    cases hc : (if isFirst then some rest else char? ':' rest) with
    | none => simp
    | some cs =>
      have hends := hnone cs hc
      simp [ipv4?_eq_none_of_ends hends.decimal, group?_eq_none hends]

theorem groups_tail {room : Nat} {gs : List UInt16} (h : Stops rest) (hl : gs.length ≤ room) :
    groups room false (tailGroups gs ++ rest) = (gs, false, rest) := by
  induction gs generalizing room with
  | nil => exact groups_stops room false h
  | cons g gs ih =>
    obtain ⟨room, rfl⟩ := Nat.exists_eq_succ_of_ne_zero (Nat.ne_zero_of_lt hl)
    have hc : (if false then some (tailGroups (g :: gs) ++ rest)
        else char? ':' (tailGroups (g :: gs) ++ rest)) =
          some (Ipv6.renderGroup g ++ (tailGroups gs ++ rest)) := by
      simp [tailGroups, char?]
    obtain ⟨hends, hdot⟩ := ends_tailGroups gs h
    rw [groups_succ hends hdot hc, ih (Nat.le_of_succ_le_succ hl)]

/-- Groups are read up to what stops them, if there is room for all of them. -/
theorem groups_render {room : Nat} {gs : List UInt16} (h : Stops rest) (hl : gs.length ≤ room) :
    groups room true (Ipv6.renderGroups gs ++ rest) = (gs, false, rest) := by
  cases gs with
  | nil => exact groups_stops room true h
  | cons g gs =>
    obtain ⟨room, rfl⟩ := Nat.exists_eq_succ_of_ne_zero (Nat.ne_zero_of_lt hl)
    obtain ⟨hends, hdot⟩ := ends_tailGroups gs h
    rw [renderGroups_cons, groups_succ hends hdot (by rw [if_pos rfl, List.append_assoc]),
      groups_tail h (Nat.le_of_succ_le_succ hl)]

end SocketAddress

namespace Ipv6

def HasZeros (gs : List UInt16) (run : Nat × Nat) : Prop :=
  ∀ j < run.2, gs[run.1 + j]? = some 0

theorem hasZeros_longestZeros {all gs : List UInt16} {i : Nat} {run best : Nat × Nat}
    (hg : all.drop i = gs) (hend : run.2 = 0 ∨ run.1 + run.2 = i) (hrun : HasZeros all run)
    (hbest : HasZeros all best) : HasZeros all (longestZeros gs i run best) := by
  induction gs generalizing i run best with
  | nil => exact hbest
  | cons g gs ih =>
    have hi : all[i]? = some g := by rw [← List.head?_drop, hg]; rfl
    have hnext : all.drop (i + 1) = gs := by rw [← List.tail_drop, hg]; rfl
    rw [longestZeros]
    split
    case isTrue hz =>
      subst hz
      extract_lets run'
      have hrun' : HasZeros all run' := by
        intro j hj
        by_cases hr : run.2 = 0
        · have hr' : run' = (i, 1) := if_pos hr
          rw [hr'] at hj ⊢
          obtain rfl : j = 0 := Nat.lt_one_iff.mp hj
          exact hi
        · have hr' : run' = (run.1, run.2 + 1) := if_neg hr
          rw [hr'] at hj ⊢
          rcases Nat.lt_or_eq_of_le (Nat.le_of_lt_succ hj) with hlt | rfl
          · exact hrun j hlt
          · rw [hend.resolve_left hr]
            exact hi
      have hend' : run'.1 + run'.2 = i + 1 := by
        by_cases hr : run.2 = 0
        · simp [run', hr]
        · have := hend.resolve_left hr
          simp [run', hr]
          omega
      refine ih hnext (.inr hend') hrun' ?_
      split
      · exact hrun'
      · exact hbest
    case isFalse => exact ih hnext (.inl rfl) nofun hbest

theorem take_zeros_drop (gs : List UInt16) {start length : Nat}
    (h : longestZeros gs 0 (0, 0) (0, 0) = (start, length)) (hl : 0 < length) :
    gs = gs.take start ++ List.replicate length 0 ++ gs.drop (start + length) ∧
      start + length ≤ gs.length := by
  have hz := hasZeros_longestZeros (show gs.drop 0 = gs from List.drop_zero) (.inl rfl)
    (show HasZeros gs (0, 0) from nofun) (show HasZeros gs (0, 0) from nofun)
  rw [h] at hz
  have hle : start + length ≤ gs.length := by
    obtain ⟨hlt, -⟩ := List.getElem?_eq_some_iff.mp (hz (length - 1) (by dsimp only; omega))
    dsimp only at hlt
    omega
  have hrep : (gs.drop start).take length = List.replicate length 0 := by
    refine List.ext_getElem? fun j => ?_
    rcases Nat.lt_or_ge j length with hj | hj
    · rw [List.getElem?_take_of_lt hj, List.getElem?_drop, hz j hj,
        List.getElem?_replicate_of_lt hj]
    · rw [List.getElem?_eq_none (by simp; omega), List.getElem?_eq_none (by simpa using hj)]
  refine ⟨?_, hle⟩
  rw [← hrep, List.append_assoc, ← List.drop_drop, List.take_append_drop, List.take_append_drop]

theorem ofList_toList (ip : Ipv6) : ofList ip.groups.toList = ip := by
  obtain ⟨gs⟩ := ip
  refine congrArg Ipv6.mk (Vector.ext fun i hi => ?_)
  simp [List.getD_eq_getElem?_getD]

theorem pair_bytes (x : UInt16) :
    (x / 256).toUInt8.toUInt16 * 256 + (x % 256).toUInt8.toUInt16 = x := by
  rw [← UInt16.toNat_inj]
  have := x.toNat_lt_size
  simp [UInt16.size] at this ⊢
  omega

/-- The mapped form is that of a version 4 address after five zero groups and one of all ones. -/
theorem mapped?_eq_some_iff {ip : Ipv6} {host : Ipv4} (h : ip.mapped? = some host) :
    ip.groups.toList = List.replicate 5 0 ++ 0xffff :: pairOfIpv4 host := by
  unfold mapped? at h
  split at h
  case h_1 x y hg =>
    obtain rfl := Option.some.inj h
    rw [hg, pairOfIpv4, pair_bytes, pair_bytes]
    rfl
  case h_2 => cases h

end Ipv6

namespace SocketAddress

variable {rest : List Char}

/-- The groups around `::`, with zeros for those that are not written. -/
theorem ipv6?_colons {front back : List UInt16} {dotted : Bool} {cs : List Char}
    (hl : front.length < 8) (hb : groups (7 - front.length) true cs = (back, dotted, rest)) :
    ipv6? (Ipv6.renderGroups front ++ ':' :: ':' :: cs) = some
      (.ofList (front ++ List.replicate (8 - front.length - back.length) 0 ++ back), rest) := by
  rw [ipv6?, groups_render (stops_colons cs) hl.le]
  dsimp only
  rw [if_neg hl.ne, if_neg Bool.false_ne_true]
  simp [hb]

theorem ipv6?_mapped (host : Ipv4) (h : Stops rest) :
    ipv6? ("::ffff:".toList ++ host.render ++ rest) =
      some (.ofList (List.replicate 5 0 ++ 0xffff :: Ipv6.pairOfIpv4 host), rest) := by
  have htext : "::ffff:".toList ++ host.render ++ rest = Ipv6.renderGroups [] ++
      ':' :: ':' :: (Ipv6.renderGroup 0xffff ++ ':' :: (host.render ++ rest)) :=
    List.append_assoc ..
  have hends : Ends hexValue? (':' :: (host.render ++ rest)) := by
    rintro c ⟨⟩
    rfl
  have hlast : groups 6 false (':' :: (host.render ++ rest)) =
      (Ipv6.pairOfIpv4 host, true, rest) := by
    simp [groups, char?, ipv4?_render host h.ends.decimal]
  rw [htext, ipv6?_colons (by decide) (groups_succ hends (by simp) rfl), hlast]
  rfl

theorem ipv6?_render (ip : Ipv6) (h : Stops rest) :
    ipv6? (ip.render ++ rest) = some (ip, rest) := by
  unfold Ipv6.render
  split
  case h_1 host hm =>
    rw [ipv6?_mapped host h, ← Ipv6.mapped?_eq_some_iff hm, Ipv6.ofList_toList]
  case h_2 =>
    extract_lets gs
    have hlength : gs.length = 8 := ip.groups.length_toList
    obtain ⟨⟨start, length⟩, hz⟩ : ∃ run, Ipv6.longestZeros gs 0 (0, 0) (0, 0) = run := ⟨_, rfl⟩
    rw [hz]
    dsimp only
    split
    case isTrue hl =>
      obtain ⟨hgs, hle⟩ := Ipv6.take_zeros_drop gs hz (Nat.zero_lt_of_lt hl)
      have hfront : (gs.take start).length = start := List.length_take_of_le (by omega)
      have hback : (gs.drop (start + length)).length = 8 - start - length := by
        rw [List.length_drop, hlength]
        omega
      have hzeros : 8 - (gs.take start).length - (gs.drop (start + length)).length = length := by
        omega
      rw [List.append_assoc]
      refine (ipv6?_colons (by omega) (groups_render h (by omega))).trans ?_
      rw [hzeros, ← hgs, Ipv6.ofList_toList]
    case isFalse =>
      rw [ipv6?, groups_render h hlength.le]
      dsimp only
      rw [if_pos hlength, Ipv6.ofList_toList]

theorem scope_append (n : UInt32) (rest : List Char) :
    scope ((if n = 0 then [] else '%' :: Decimal.chars n.toNat) ++ ']' :: rest) =
      (n, ']' :: rest) := by
  have hends : Ends Decimal.ofChar? (']' :: rest) := by
    rintro c ⟨⟩
    rfl
  by_cases hn : n = 0
  · subst hn
    rfl
  · have hd := decimal?_chars n.toNat_lt_size hends
    simp [hn, scope, char?, hd]

theorem portNumber?_chars (n : UInt16) :
    portNumber? (':' :: Decimal.chars n.toNat) = some (n, []) := by
  have hd := decimal?_chars n.toNat_lt_size (show Ends Decimal.ofChar? [] from nofun)
  rw [List.append_nil] at hd
  have hs : UInt16.size = 65536 := rfl
  simp [portNumber?, char?, hs ▸ hd]

theorem v6?_render (host : Ipv6) (s : UInt32) (n : UInt16) :
    v6? (render (.v6 host s n)) = some (.v6 host s n, []) := by
  have hstops : Stops ((if s = 0 then [] else '%' :: Decimal.chars s.toNat) ++
      ']' :: ':' :: Decimal.chars n.toNat) := by
    split
    · exact stops_bracket _
    · exact stops_percent _
  have hhost := ipv6?_render host hstops
  simp only [render, v6?, List.cons_append, List.append_assoc]
  simp [char?, hhost, scope_append, portNumber?_chars]

/-- Every address is read back from its written form. -/
theorem ofText?_text (a : SocketAddress) : ofText? a.text = some a := by
  rw [ofText?, text, String.toList_ofList]
  cases a with
  | v4 host n =>
    have hends : Ends Decimal.ofChar? (':' :: Decimal.chars n.toNat) := by
      rintro c ⟨⟩
      rfl
    simp [parse?, v4?, render, ipv4?_render host hends, portNumber?_chars]
  | v6 host s n =>
    have hv4 : v4? (render (.v6 host s n)) = none := by
      have hends : Ends Decimal.ofChar? (render (.v6 host s n)) := by
        rintro c ⟨⟩
        rfl
      rw [v4?, ipv4?_eq_none_of_ends hends]
      rfl
    simp [parse?, hv4, v6?_render]

end SocketAddress

end CommandLog
