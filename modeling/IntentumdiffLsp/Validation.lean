import IntentumdiffLsp.Specs

/-!
Which entries pass, and what becomes of their fields.
-/

namespace IntentumdiffLsp.Validation

open Foundations
open Foundations.Fallible
open IntentumdiffLsp.Json
open IntentumdiffLsp.Specs

def Transport.text : Transport → String
  | .tcp => "tcp"
  | .stdio => "stdio"

def textArray (texts : List String) : Value :=
  .array (texts.map .string)

/-- A JSON number without a fraction. -/
def IsInteger (v : Value) (n : Int) : Prop :=
  (∃ u : UInt64, v = .number (.posInt u) ∧ n = u.toNat) ∨
    ∃ i : Int64, v = .number (.negInt i) ∧ n = i.toInt

def IsPositive : Value → Prop
  | .number (.posInt n) => 0 < n.toNat
  | .number (.negInt n) => 0 < n.toInt
  | .number (.float bits) => Binary64.Positive ⟨bits⟩
  | _ => False

/-- The fields of an object that is a well-formed entry. -/
structure WellFormed (field : String → Option Value) : Prop where
  language : ∃ s, field "language" = some (.string s) ∧ s ≠ ""
  transport : field "transport" = none ∨ field "transport" = some (.string "stdio") ∨
    field "transport" = some (.string "tcp")
  command : field "command" = none ∨ ∃ texts, field "command" = some (textArray texts)
  host : field "host" = none ∨ ∃ s, field "host" = some (.string s) ∧ s ≠ ""
  port : field "port" = none ∨ field "port" = some .null ∨
    ∃ v n, field "port" = some v ∧ IsInteger v n ∧ 1 ≤ n ∧ n ≤ 65535
  startupTimeout : field "startup_timeout" = none ∨
    ∃ v, field "startup_timeout" = some v ∧ IsPositive v
  installHint : field "install_hint" = none ∨ ∃ s, field "install_hint" = some (.string s)
  allowUnverifiedTcpAutostart : field "allow_unverified_tcp_autostart" = none ∨
    ∃ b, field "allow_unverified_tcp_autostart" = some (.bool b)
  stdioCommand : field "transport" = none ∨ field "transport" = some (.string "stdio") →
    ∃ texts, field "command" = some (textArray texts) ∧ texts ≠ []
  tcpPort : field "transport" = some (.string "tcp") →
    field "command" = none ∨ field "command" = some (textArray []) →
    field "port" ≠ none ∧ field "port" ≠ some .null

/-- A field that is missing has its default, and is itself otherwise. -/
def Given {τ : Type} (encode : τ → Value) (default : τ) (field : Option Value) (x : τ) : Prop :=
  (field = none ∧ x = default) ∨ field = some (encode x)

/-- Each field of the entry is the JSON field, or its default. -/
structure Carries (field : String → Option Value) (entry : ServerEntry) : Prop where
  language : field "language" = some (.string entry.language)
  transport : Given (fun t => .string (Transport.text t)) .stdio (field "transport") entry.transport
  command : Given textArray [] (field "command") entry.command
  host : Given .string "localhost" (field "host") entry.host
  port : ((field "port" = none ∨ field "port" = some .null) ∧ entry.port = none) ∨
    ∃ v p, field "port" = some v ∧ IsInteger v p.toNat ∧ entry.port = some p
  startupTimeout : (field "startup_timeout" = none ∧ entry.startupTimeout = .ofInt 15) ∨
    ∃ v, field "startup_timeout" = some v ∧ asF64 v = some entry.startupTimeout
  installHint : Given .string "" (field "install_hint") entry.installHint
  allowUnverifiedTcpAutostart :
    Given .bool false (field "allow_unverified_tcp_autostart") entry.allowUnverifiedTcpAutostart

/-- What every entry that passes has in common. -/
structure Valid (entry : ServerEntry) : Prop where
  language : entry.language ≠ ""
  host : entry.host ≠ ""
  port : entry.port ≠ some 0
  startupTimeout : entry.startupTimeout.leZero = false
  stdioCommand : entry.transport = .stdio → entry.command ≠ []
  tcpPort : entry.transport = .tcp → entry.command = [] → entry.port ≠ none

/-- The fields as the parser takes them: one of the wrong type counts as missing, for
three of the keys. -/
def tolerated (field : String → Option Value) (key : String) : Option Value :=
  if key = "transport" ∨ key = "install_hint" then
    (field key).filter fun v => v.asStr.isSome
  else if key = "allow_unverified_tcp_autostart" then
    (field key).filter fun v => v.asBool.isSome
  else field key

/-- One of the three is there and of the wrong type. -/
def Mistyped (field : String → Option Value) : Prop :=
  (∃ v, field "transport" = some v ∧ v.asStr = none) ∨
    (∃ v, field "install_hint" = some v ∧ v.asStr = none) ∨
    ∃ v, field "allow_unverified_tcp_autostart" = some v ∧ v.asBool = none

section Fields

variable {debugStr : String → String} {name : String} {data : Value}

theorem asStr_eq_some {v : Value} {s : String} : v.asStr = some s ↔ v = .string s := by
  rcases v with _ | _ | _ | _ | _ | _ <;> simp [Value.asStr]

theorem asBool_eq_some {v : Value} {b : Bool} : v.asBool = some b ↔ v = .bool b := by
  rcases v with _ | _ | _ | _ | _ | _ <;> simp [Value.asBool]

theorem asI64_eq_some {v : Value} {n : Int} (hfits : n < 2 ^ 63) :
    v.asI64 = some n ↔ IsInteger v n := by
  rcases v with _ | _ | number | _ | _ | _
  case number =>
    rcases number with u | i | bits
    · simp only [Value.asI64, IsInteger]
      split
      · simp [eq_comm]
      · rename_i hlarge
        simp
        omega
    · simp [Value.asI64, IsInteger, eq_comm]
    · simp [Value.asI64, IsInteger]
  all_goals simp [Value.asI64, IsInteger]

theorem parseLanguage_eq_ok {language : String} :
    parseLanguage debugStr name data = .ok language ↔
      data.get "language" = some (.string language) ∧ language ≠ "" := by
  rw [parseLanguage]
  rcases hfield : (data.get "language").bind Value.asStr with _ | s
  · have hnot : ∀ s, data.get "language" ≠ some (.string s) := by
      intro s hs
      rw [hs] at hfield
      cases hfield
    simp [hnot]
  · obtain ⟨v, hv, hs⟩ := Option.bind_eq_some_iff.mp hfield
    rw [asStr_eq_some] at hs
    rw [hv, hs]
    simp only [Option.getD_some]
    constructor
    · intro h
      split at h
      · cases h
      · cases h
        exact ⟨rfl, ‹_›⟩
    · rintro ⟨⟨⟩, hne⟩
      exact if_neg hne

/-- Reading a text or a boolean with a default passes over a field of another type. -/
theorem getD_eq_iff {τ : Type} {decode : Value → Option τ} {encode : τ → Value} {default x : τ}
    (hdecode : ∀ v x, decode v = some x ↔ v = encode x) (field : Option Value) :
    (field.bind decode).getD default = x ↔
      Given encode default (field.filter fun v => (decode v).isSome) x := by
  rcases field with _ | v
  · simp [Given, eq_comm]
  · rcases hv : decode v with _ | y
    · simp only [Option.filter_some, hv, Given, Option.bind_some, Option.getD_none]
      simp [eq_comm]
    · have heq := (hdecode v y).mp hv
      simp only [Option.bind_some, hv, Option.getD_some, Given, Option.filter_some, Option.isSome_some,
        if_true, Option.some.injEq]
      constructor
      · rintro rfl
        exact .inr heq
      · rintro (⟨hnone, -⟩ | hsome)
        · cases hnone
        · rw [hsome] at hv
          exact Option.some.inj (hv.symm.trans ((hdecode _ x).mpr rfl))

theorem parseTransport_eq_ok {transport : Transport} :
    parseTransport debugStr name data = .ok transport ↔
      Given (fun t => .string (Transport.text t)) .stdio (tolerated data.get "transport")
        transport := by
  have htolerated : tolerated data.get "transport" =
      (data.get "transport").filter fun v => v.asStr.isSome := rfl
  rw [htolerated, parseTransport]
  rcases data.get "transport" with _ | v
  · simp [Given, eq_comm]
  · rcases hv : v.asStr with _ | s
    · simp only [Option.filter_some, hv, Given, Option.bind_some]
      simp [eq_comm]
    · obtain rfl := asStr_eq_some.mp hv
      rw [Option.bind_some, hv]
      rcases transport with _ | _
      · have htcp : Given (fun t => .string (Transport.text t)) .stdio
            (Option.filter (fun v : Value => v.asStr.isSome) (some (.string s))) Transport.tcp ↔
            s = "tcp" := by
          simp [Given, Transport.text, Value.asStr]
        rw [htcp]
        split <;> simp_all
      · have hstdio : Given (fun t => .string (Transport.text t)) .stdio
            (Option.filter (fun v : Value => v.asStr.isSome) (some (.string s))) Transport.stdio ↔
            s = "stdio" := by
          simp [Given, Transport.text, Value.asStr]
        rw [hstdio]
        split <;> simp_all

theorem parseCommandItem_eq_ok {v : Value} {text : String} :
    parseCommandItem debugStr name v = .ok text ↔ v = .string text := by
  rw [← asStr_eq_some, parseCommandItem]
  rcases v.asStr with _ | s <;> simp

theorem parseCommand_eq_ok {command : List String} :
    parseCommand debugStr name data = .ok command ↔
      Given textArray [] (data.get "command") command := by
  rw [parseCommand, Given]
  rcases data.get "command" with _ | v
  · simp [eq_comm]
  · rcases v with _ | _ | _ | _ | items | _
    case array =>
      have hitems : List.Forall₂ (fun v text => v = .string text) items command ↔
          items = command.map .string := by
        rw [← List.forall₂_map_right_iff (R := Eq), List.forall₂_eq_eq_eq]
      simp only [mapM_eq_ok, parseCommandItem_eq_ok, hitems, textArray]
      simp
    all_goals simp [textArray]

theorem parseHost_eq_ok {host : String} :
    parseHost debugStr name data = .ok host ↔
      Given .string "localhost" (data.get "host") host ∧ host ≠ "" := by
  rw [parseHost, Given]
  rcases data.get "host" with _ | v
  · simp only [Except.ok.injEq, reduceCtorEq, or_false, true_and]
    constructor
    · rintro rfl
      exact ⟨rfl, by decide⟩
    · exact fun h => h.1.symm
  · rcases v with _ | _ | _ | s | _ | _
    case string =>
      simp only [Option.some.injEq, Value.string.injEq, reduceCtorEq, false_and, false_or]
      constructor
      · intro h
        split at h
        · cases h
        · cases h
          exact ⟨rfl, ‹_›⟩
      · rintro ⟨rfl, hne⟩
        exact if_neg hne
    all_goals simp

theorem parsePortNumber_eq_ok {v : Value} {p : UInt16} :
    parsePortNumber debugStr name v = .ok p ↔ IsInteger v p.toNat ∧ p ≠ 0 := by
  have hbound : p.toNat < 65536 := p.toNat_lt
  rw [parsePortNumber, ← asI64_eq_some (by omega)]
  rcases v.asI64 with _ | n
  · simp
  · dsimp only
    rw [Option.some.injEq]
    split
    · rename_i hrange
      have hport : (UInt16.ofNat n.toNat).toNat = n.toNat :=
        UInt16.toNat_ofNat_of_lt' (by change _ < 65536; omega)
      constructor
      · rintro ⟨⟩
        refine ⟨by omega, ?_⟩
        rintro hzero
        rw [hzero] at hport
        change 0 = _ at hport
        omega
      · rintro ⟨rfl, -⟩
        rw [Int.toNat_natCast, UInt16.ofNat_toNat]
    · rename_i hrange
      refine ⟨nofun, ?_⟩
      rintro ⟨rfl, hne⟩
      have hpos : p.toNat ≠ 0 := fun hzero => hne (UInt16.toNat_inj.mp hzero)
      exact absurd ⟨by omega, by omega⟩ hrange

theorem parsePort_eq_ok {port : Option UInt16} :
    parsePort debugStr name data = .ok port ↔
      (((data.get "port" = none ∨ data.get "port" = some .null) ∧ port = none) ∨
        ∃ v p, data.get "port" = some v ∧ IsInteger v p.toNat ∧ port = some p) ∧
      port ≠ some 0 := by
  have habsent : Except.ok (ε := String) none = Except.ok port ↔ port = none := by
    simp [eq_comm]
  have hnumber : ∀ v, (parsePortNumber debugStr name v).map some = .ok port ↔
      (∃ p, IsInteger v p.toNat ∧ port = some p) ∧ port ≠ some 0 := by
    intro v
    simp only [map_eq_ok, parsePortNumber_eq_ok]
    constructor
    · rintro ⟨p, ⟨hv, hne⟩, rfl⟩
      exact ⟨⟨p, hv, rfl⟩, fun hzero => hne (Option.some.inj hzero)⟩
    · rintro ⟨⟨p, hv, rfl⟩, hne⟩
      exact ⟨p, ⟨hv, fun hzero => hne (congrArg some hzero)⟩, rfl⟩
  rw [parsePort]
  split
  · rename_i hfield
    rw [hfield, habsent]
    constructor
    · rintro rfl
      exact ⟨.inl ⟨.inl rfl, rfl⟩, nofun⟩
    · rintro ⟨⟨-, hport⟩ | ⟨v, p, hv, -⟩, -⟩
      · exact hport
      · cases hv
  · rename_i hfield
    rw [hfield, habsent]
    constructor
    · rintro rfl
      exact ⟨.inl ⟨.inr rfl, rfl⟩, nofun⟩
    · rintro ⟨⟨-, hport⟩ | ⟨v, p, ⟨⟩, hv, -⟩, -⟩
      · exact hport
      · simp [IsInteger] at hv
  · rename_i v hnull hfield
    rw [hnumber, hfield]
    constructor
    · rintro ⟨⟨p, hv, hport⟩, hne⟩
      exact ⟨.inr ⟨v, p, rfl, hv, hport⟩, hne⟩
    · rintro ⟨⟨hnone | hnull', -⟩ | ⟨v, p, ⟨⟩, hv, hport⟩, hne⟩
      · cases hnone
      · exact absurd (Option.some.inj hnull') hnull
      · exact ⟨⟨p, hv, hport⟩, hne⟩

theorem parseStartupTimeout_eq_ok {t : Binary64} :
    parseStartupTimeout debugStr name data = .ok t ↔
      ((data.get "startup_timeout" = none ∧ t = .ofInt 15) ∨
        ∃ v, data.get "startup_timeout" = some v ∧ asF64 v = some t) ∧ t.leZero = false := by
  rw [parseStartupTimeout]
  rcases data.get "startup_timeout" with _ | v
  · simp only [Except.ok.injEq, reduceCtorEq, true_and, false_and, exists_false, or_false]
    constructor
    · rintro rfl
      exact ⟨rfl, by decide⟩
    · exact fun h => h.1.symm
  · simp only [Option.some.injEq, reduceCtorEq, false_and, false_or, exists_eq_left']
    constructor
    · intro h
      split at h
      · cases h
      · rename_i t' ht
        split at h
        · cases h
        · cases h
          exact ⟨ht, Bool.eq_false_of_not_eq_true ‹_›⟩
    · rintro ⟨ht, hpositive⟩
      rw [ht]
      exact if_neg (by simp [hpositive])

theorem validate_eq_ok {transport : Transport} {command : List String} {port : Option UInt16}
    {done : Unit} : validate debugStr name transport command port = .ok done ↔
      (transport = .stdio → command ≠ []) ∧ (transport = .tcp → command = [] → port ≠ none) := by
  rw [validate]
  split
  · rename_i h
    simp [h.1, h.2]
  · split
    · rename_i h
      simp [h.1, h.2.1, h.2.2]
    · rename_i hstdio htcp
      simp only [true_iff]
      exact ⟨fun ht hc => hstdio ⟨ht, hc⟩, fun ht hc hp => htcp ⟨ht, hc, hp⟩⟩

theorem parse_eq_ok {entry : ServerEntry} :
    ServerEntry.parse debugStr name data = .ok entry ↔
      (asObject data).isSome = true ∧ Carries (tolerated data.get) entry ∧ Valid entry := by
  rw [ServerEntry.parse]
  rcases asObject data with _ | fields
  · simp
  · simp only [bind_eq_ok, parseLanguage_eq_ok, parseTransport_eq_ok, parseCommand_eq_ok,
      parseHost_eq_ok, parsePort_eq_ok, parseStartupTimeout_eq_ok, validate_eq_ok]
    constructor
    · rintro ⟨language, ⟨hlanguage, hlanguage'⟩, transport, htransport, command, hcommand, host,
        ⟨hhost, hhost'⟩, port, ⟨hport, hport'⟩, startupTimeout, ⟨htimeout, htimeout'⟩, -,
        ⟨hstdio, htcp⟩, ⟨⟩⟩
      refine ⟨rfl, ⟨hlanguage, htransport, hcommand, hhost, hport, htimeout, ?_, ?_⟩,
        ⟨hlanguage', hhost', hport', htimeout', hstdio, htcp⟩⟩
      · exact (getD_eq_iff (fun _ _ => asStr_eq_some) _).mp rfl
      · exact (getD_eq_iff (fun _ _ => asBool_eq_some) _).mp rfl
    · rintro ⟨-, hcarries, hvalid⟩
      refine ⟨entry.language, ⟨hcarries.language, hvalid.language⟩, entry.transport,
        hcarries.transport, entry.command, hcarries.command, entry.host,
        ⟨hcarries.host, hvalid.host⟩, entry.port, ⟨hcarries.port, hvalid.port⟩,
        entry.startupTimeout, ⟨hcarries.startupTimeout, hvalid.startupTimeout⟩, (),
        ⟨hvalid.stdioCommand, hvalid.tcpPort⟩, ?_⟩
      have hhint := (getD_eq_iff (fun _ _ => asStr_eq_some) _).mpr hcarries.installHint
      have hallow := (getD_eq_iff (fun _ _ => asBool_eq_some) _).mpr
        hcarries.allowUnverifiedTcpAutostart
      rw [hhint, hallow]
      rfl

end Fields

section Shape

variable {field : String → Option Value}

theorem tolerated_of_ne {key : String} (htransport : key ≠ "transport")
    (hhint : key ≠ "install_hint") (hallow : key ≠ "allow_unverified_tcp_autostart") :
    tolerated field key = field key := by
  rw [tolerated, if_neg (by simp [htransport, hhint]), if_neg hallow]

theorem tolerated_eq_self (h : ¬Mistyped field) : tolerated field = field := by
  simp only [Mistyped, not_or, not_exists, not_and] at h
  obtain ⟨htransport, hhint, hallow⟩ := h
  have hkeep : ∀ {τ : Type} (decode : Value → Option τ) (value : Option Value),
      (∀ v, value = some v → ¬decode v = none) →
      value.filter (fun v => (decode v).isSome) = value := by
    rintro τ decode (_ | v) htype
    · rfl
    · exact if_pos (Option.isSome_iff_ne_none.mpr (htype v rfl))
  funext key
  unfold tolerated
  split
  · rename_i hkey
    rcases hkey with rfl | rfl
    · exact hkeep _ _ htransport
    · exact hkeep _ _ hhint
  · split
    · rename_i hkey
      rw [hkey]
      exact hkeep _ _ hallow
    · rfl

theorem WellFormed.not_mistyped (h : WellFormed field) : ¬Mistyped field := by
  rintro (⟨v, hv, htype⟩ | ⟨v, hv, htype⟩ | ⟨v, hv, htype⟩)
  · rcases h.transport with hnone | hstdio | htcp
    · cases hnone.symm.trans hv
    · cases hstdio.symm.trans hv
      cases htype
    · cases htcp.symm.trans hv
      cases htype
  · rcases h.installHint with hnone | ⟨s, hs⟩
    · cases hnone.symm.trans hv
    · cases hs.symm.trans hv
      cases htype
  · rcases h.allowUnverifiedTcpAutostart with hnone | ⟨b, hb⟩
    · cases hnone.symm.trans hv
    · cases hb.symm.trans hv
      cases htype

/-- The timeout is a number; `serde_json` has no NaN. -/
def TimeoutIsNumber (field : String → Option Value) : Prop :=
  ∀ bits, field "startup_timeout" = some (.number (.float bits)) →
    (Binary64.mk bits).isNaN = false

theorem asF64_positive {v : Value} {t : Binary64} (ht : asF64 v = some t)
    (hnumber : ∀ bits, v = .number (.float bits) → (Binary64.mk bits).isNaN = false) :
    t.leZero = false ↔ IsPositive v := by
  rcases v with _ | _ | number | _ | _ | _
  case number =>
    rcases number with n | n | bits
    · cases ht
      have hbound := n.toNat_lt
      rw [Binary64.not_leZero (Binary64.isNaN_ofInt (by omega) (by omega)),
        Binary64.positive_ofInt (by omega) (by omega), IsPositive]
      omega
    · cases ht
      have hlow := n.le_toInt
      have hhigh := n.toInt_lt
      rw [Binary64.not_leZero (Binary64.isNaN_ofInt (by omega) (by omega)),
        Binary64.positive_ofInt (by omega) (by omega), IsPositive]
    · cases ht
      exact Binary64.not_leZero (hnumber bits rfl)
  all_goals cases ht

theorem asF64_of_positive {v : Value} (h : IsPositive v) : ∃ t, asF64 v = some t := by
  rcases v with _ | _ | number | _ | _ | _
  case number => rcases number with n | n | bits <;> exact ⟨_, rfl⟩
  all_goals exact h.elim

theorem Carries.transport_stdio {entry : ServerEntry} (h : Carries field entry) :
    field "transport" = none ∨ field "transport" = some (.string "stdio") ↔
      entry.transport = .stdio := by
  rcases h.transport with ⟨hfield, hdefault⟩ | hfield
  · simp [hfield, hdefault]
  · rcases htransport : entry.transport with _ | _
    · simp [hfield, htransport, Transport.text]
    · simp [hfield, htransport, Transport.text]

theorem Carries.transport_tcp {entry : ServerEntry} (h : Carries field entry) :
    field "transport" = some (.string "tcp") ↔ entry.transport = .tcp := by
  rcases h.transport with ⟨hfield, hdefault⟩ | hfield
  · simp [hfield, hdefault]
  · rcases htransport : entry.transport with _ | _
    · simp [hfield, htransport, Transport.text]
    · simp [hfield, htransport, Transport.text]

theorem textArray_injective : Function.Injective textArray := by
  intro texts texts' h
  exact List.map_injective_iff.mpr (fun _ _ hs => Value.string.inj hs) (Value.array.inj h)

theorem Carries.command_nil {entry : ServerEntry} (h : Carries field entry) :
    field "command" = none ∨ field "command" = some (textArray []) ↔ entry.command = [] := by
  rcases h.command with ⟨hfield, hdefault⟩ | hfield
  · simp [hfield, hdefault]
  · simp [hfield, textArray_injective.eq_iff]

theorem Carries.port_none {entry : ServerEntry} (h : Carries field entry) :
    field "port" = none ∨ field "port" = some .null ↔ entry.port = none := by
  rcases h.port with ⟨hfield, hport⟩ | ⟨v, p, hfield, hv, hport⟩
  · simp [hfield, hport]
  · have hnull : v ≠ .null := by
      rintro rfl
      simp [IsInteger] at hv
    simp [hfield, hport, hnull]

theorem wellFormed_of_carries {entry : ServerEntry} (hnumber : TimeoutIsNumber field)
    (hcarries : Carries field entry) (hvalid : Valid entry) : WellFormed field := by
  constructor
  · exact ⟨_, hcarries.language, hvalid.language⟩
  · rcases htransport : entry.transport with _ | _
    · exact .inr (.inr (hcarries.transport_tcp.mpr htransport))
    · exact (hcarries.transport_stdio.mpr htransport).imp_right .inl
  · exact hcarries.command.imp And.left fun hfield => ⟨_, hfield⟩
  · exact hcarries.host.imp And.left fun hfield => ⟨_, hfield, hvalid.host⟩
  · rcases hcarries.port with ⟨hnone | hnull, -⟩ | ⟨v, p, hfield, hv, hport⟩
    · exact .inl hnone
    · exact .inr (.inl hnull)
    · have hbound := p.toNat_lt
      have hpos : p.toNat ≠ 0 := by
        intro hzero
        apply hvalid.port
        rw [hport, UInt16.toNat_inj.mp (hzero.trans UInt16.toNat_zero.symm)]
      exact .inr (.inr ⟨v, p.toNat, hfield, hv, by omega, by omega⟩)
  · rcases hcarries.startupTimeout with ⟨hnone, -⟩ | ⟨v, hfield, ht⟩
    · exact .inl hnone
    · refine .inr ⟨v, hfield, (asF64_positive ht ?_).mp hvalid.startupTimeout⟩
      rintro bits rfl
      exact hnumber bits hfield
  · exact hcarries.installHint.imp And.left fun hfield => ⟨_, hfield⟩
  · exact hcarries.allowUnverifiedTcpAutostart.imp And.left fun hfield => ⟨_, hfield⟩
  · intro hstdio
    have hne := hvalid.stdioCommand (hcarries.transport_stdio.mp hstdio)
    rcases hcarries.command with ⟨-, hdefault⟩ | hfield
    · exact absurd hdefault hne
    · exact ⟨_, hfield, hne⟩
  · intro htcp hempty
    have hport := hvalid.tcpPort (hcarries.transport_tcp.mp htcp) (hcarries.command_nil.mp hempty)
    exact not_or.mp (mt hcarries.port_none.mp hport)

theorem given_of_absent_or {τ : Type} (encode : τ → Value) (P : τ → Prop) (default : τ)
    {value : Option Value} (hdefault : P default)
    (h : value = none ∨ ∃ x, value = some (encode x) ∧ P x) :
    ∃ x, Given encode default value x ∧ P x := by
  rcases h with hnone | ⟨x, hx, hP⟩
  · exact ⟨default, .inl ⟨hnone, rfl⟩, hdefault⟩
  · exact ⟨x, .inr hx, hP⟩

theorem exists_port (h : WellFormed field) : ∃ port : Option UInt16,
    (((field "port" = none ∨ field "port" = some .null) ∧ port = none) ∨
      ∃ v p, field "port" = some v ∧ IsInteger v p.toNat ∧ port = some p) ∧ port ≠ some 0 := by
  rcases h.port with hnone | hnull | ⟨v, n, hfield, hv, hlow, hhigh⟩
  · exact ⟨none, .inl ⟨.inl hnone, rfl⟩, nofun⟩
  · exact ⟨none, .inl ⟨.inr hnull, rfl⟩, nofun⟩
  · have hp : ((UInt16.ofNat n.toNat).toNat : Int) = n := by
      rw [UInt16.toNat_ofNat_of_lt' (by change _ < 65536; omega)]
      omega
    refine ⟨some (.ofNat n.toNat), .inr ⟨v, _, hfield, ?_, rfl⟩, ?_⟩
    · rwa [hp]
    · intro hzero
      rw [Option.some.inj hzero] at hp
      change 0 = n at hp
      omega

theorem exists_timeout (hnumber : TimeoutIsNumber field) (h : WellFormed field) :
    ∃ t, ((field "startup_timeout" = none ∧ t = .ofInt 15) ∨
      ∃ v, field "startup_timeout" = some v ∧ asF64 v = some t) ∧ t.leZero = false := by
  rcases h.startupTimeout with hnone | ⟨v, hfield, hpositive⟩
  · exact ⟨_, .inl ⟨hnone, rfl⟩, by decide⟩
  · obtain ⟨t, ht⟩ := asF64_of_positive hpositive
    refine ⟨t, .inr ⟨v, hfield, ht⟩, (asF64_positive ht ?_).mpr hpositive⟩
    rintro bits rfl
    exact hnumber bits hfield

theorem carries_of_wellFormed (hnumber : TimeoutIsNumber field) (h : WellFormed field) :
    ∃ entry, Carries field entry ∧ Valid entry := by
  obtain ⟨language, hlanguage, hlanguage'⟩ := h.language
  obtain ⟨transport, htransport, -⟩ := given_of_absent_or
    (fun t => .string (Transport.text t)) (fun _ => True) .stdio trivial
    (h.transport.imp_right fun h =>
      h.elim (fun hstdio => ⟨.stdio, hstdio, trivial⟩) fun htcp => ⟨.tcp, htcp, trivial⟩)
  obtain ⟨command, hcommand, -⟩ := given_of_absent_or textArray (fun _ => True) [] trivial
    (h.command.imp_right fun ⟨texts, htexts⟩ => ⟨texts, htexts, trivial⟩)
  obtain ⟨host, hhost, hhost'⟩ := given_of_absent_or .string (fun s => s ≠ "")
    "localhost" (by decide) h.host
  obtain ⟨installHint, hhint, -⟩ := given_of_absent_or .string (fun _ => True) "" trivial
    (h.installHint.imp_right fun ⟨s, hs⟩ => ⟨s, hs, trivial⟩)
  obtain ⟨allow, hallow, -⟩ := given_of_absent_or .bool (fun _ => True) false trivial
    (h.allowUnverifiedTcpAutostart.imp_right fun ⟨b, hb⟩ => ⟨b, hb, trivial⟩)
  obtain ⟨port, hport, hport'⟩ := exists_port h
  obtain ⟨t, ht, ht'⟩ := exists_timeout hnumber h
  have hcarries : Carries field ⟨language, transport, command, host, port, t, installHint, allow⟩ :=
    ⟨hlanguage, htransport, hcommand, hhost, hport, ht, hhint, hallow⟩
  refine ⟨_, hcarries, hlanguage', hhost', hport', ht', ?_, ?_⟩
  · intro hstdio hnil
    obtain ⟨texts, htexts, hne⟩ := h.stdioCommand (hcarries.transport_stdio.mpr hstdio)
    rcases hcarries.command_nil.mpr hnil with hnone | hempty
    · cases hnone.symm.trans htexts
    · exact hne (textArray_injective (Option.some.inj (htexts.symm.trans hempty)))
  · intro htcp hnil hnone
    obtain ⟨hpresent, hnonnull⟩ :=
      h.tcpPort (hcarries.transport_tcp.mpr htcp) (hcarries.command_nil.mpr hnil)
    exact (hcarries.port_none.mpr hnone).elim hpresent hnonnull

end Shape

/-- Exactly the well-formed entries pass, and a field is what the JSON says. -/
def Strict (debugStr : String → String) (name : String) (data : Value) : Prop :=
  ((∃ entry, ServerEntry.parse debugStr name data = .ok entry) ↔
      (asObject data).isSome = true ∧ WellFormed data.get) ∧
    ∀ entry, ServerEntry.parse debugStr name data = .ok entry → Carries data.get entry

/-- Three keys take a value of the wrong type for a missing one; an entry that would be
well-formed without such values passes all the same, and no other goes wrong. -/
theorem parse_strict_iff (debugStr : String → String) (name : String) (data : Value)
    (hnumber : TimeoutIsNumber data.get) :
    Strict debugStr name data ↔
      ¬(Mistyped data.get ∧ (asObject data).isSome = true ∧ WellFormed (tolerated data.get)) := by
  have htimeout : TimeoutIsNumber (tolerated data.get) := by
    intro bits hbits
    rw [tolerated_of_ne (by decide) (by decide) (by decide)] at hbits
    exact hnumber bits hbits
  constructor
  · rintro ⟨hiff, -⟩ ⟨hmistyped, hobject, hwell⟩
    obtain ⟨entry, hcarries, hvalid⟩ := carries_of_wellFormed htimeout hwell
    have hparse : ServerEntry.parse debugStr name data = .ok entry :=
      parse_eq_ok.mpr ⟨hobject, hcarries, hvalid⟩
    exact (hiff.mp ⟨entry, hparse⟩).2.not_mistyped hmistyped
  · intro hnot
    by_cases hmistyped : Mistyped data.get
    · have hfails : ∀ entry, ServerEntry.parse debugStr name data ≠ .ok entry := by
        intro entry hparse
        obtain ⟨hobject, hcarries, hvalid⟩ := parse_eq_ok.mp hparse
        exact hnot ⟨hmistyped, hobject, wellFormed_of_carries htimeout hcarries hvalid⟩
      refine ⟨⟨?_, ?_⟩, fun entry hparse => absurd hparse (hfails entry)⟩
      · rintro ⟨entry, hparse⟩
        exact absurd hparse (hfails entry)
      · rintro ⟨-, hwell⟩
        exact absurd hmistyped hwell.not_mistyped
    · have hiff : ∀ entry, ServerEntry.parse debugStr name data = .ok entry ↔
          (asObject data).isSome = true ∧ Carries data.get entry ∧ Valid entry := by
        intro entry
        rw [parse_eq_ok, tolerated_eq_self hmistyped]
      refine ⟨⟨?_, ?_⟩, fun entry hparse => ((hiff entry).mp hparse).2.1⟩
      · rintro ⟨entry, hparse⟩
        obtain ⟨hobject, hcarries, hvalid⟩ := (hiff entry).mp hparse
        exact ⟨hobject, wellFormed_of_carries hnumber hcarries hvalid⟩
      · rintro ⟨hobject, hwell⟩
        obtain ⟨entry, hcarries, hvalid⟩ := carries_of_wellFormed hnumber hwell
        exact ⟨entry, (hiff entry).mpr ⟨hobject, hcarries, hvalid⟩⟩

/-- An entry whose transport is a number. -/
def numericTransport : Value :=
  .object [("language", .string "python"), ("command", textArray ["pylsp"]),
    ("transport", .ofI64 5)]

theorem numericTransport_timeout : TimeoutIsNumber numericTransport.get := by
  intro bits hbits
  cases hbits

theorem numericTransport_passes :
    ¬∀ debugStr name data, TimeoutIsNumber data.get → Strict debugStr name data := by
  intro hstrict
  obtain ⟨hiff, -⟩ := hstrict id "a" numericTransport numericTransport_timeout
  have hpasses : (ServerEntry.parse id "a" numericTransport).toOption.isSome = true := by
    decide +kernel
  rcases hparse : ServerEntry.parse id "a" numericTransport with error | entry
  · rw [hparse] at hpasses
    cases hpasses
  · refine (hiff.mp ⟨entry, hparse⟩).2.not_mistyped (.inl ⟨_, rfl, rfl⟩)

theorem numericTransport_strict_iff :
    Strict id "a" numericTransport ↔ ¬(Mistyped numericTransport.get ∧
      (asObject numericTransport).isSome = true ∧ WellFormed (tolerated numericTransport.get)) :=
  parse_strict_iff id "a" numericTransport numericTransport_timeout

end IntentumdiffLsp.Validation
