/-
  Which rules make `http_callback_404` open the firewall for a host.

  The whitelist is meant to be the `allow ... to <host>` lines of the global ruleset. The loop
  looks at the masks of all its rules: rules that block, drop or log, rules whose destination
  is an ipset or follows another keyword, and rules without a destination, whose mask is the
  default `0.0.0.0/0`. `whitelist_exact` says for which rulesets and hosts this makes no
  difference.
-/
import Wifidog.Model.Http

namespace Wifidog

open CText

/-- The line reads `allow ... to <host>`. -/
structure RuleLine.AllowTo (l : RuleLine) : Prop where
  target : l.target = .accept
  keyword : l.otherKw = some "to".toList
  mask : l.mask.isSome
  host : l.maskIsIpset = false

/-- The lines that the global ruleset was read from. -/
def globalLines (calls : List (Text × Text)) : List RuleLine :=
  (calls.filter (·.1 = fwrulesetGlobal)).filterMap fun c => (scanFirewallRule c.2).toOption

/-- The rule of this line is about the host. -/
def RuleLine.about (host : Text) (l : RuleLine) : Bool := hostMatches host l.record.mask

theorem getRuleset_globalLines (calls : List (Text × Text)) :
    getRuleset (parseAll [] calls) fwrulesetGlobal = (globalLines calls).map RuleLine.record := by
  rw [getRuleset_parseAll]
  unfold globalLines
  rw [List.map_filterMap]
  rfl

/-- The call of `fw_allow_host`, if there is one, is due to an `allow ... to` line whose host
    the requested host is or lies under. -/
def DueToAllow (lines : List RuleLine) (host : Text) (allowed : Option Text) : Prop :=
  allowed.isSome → ∃ l, lines.find? (·.about host) = some l ∧ l.AllowTo ∧
    HostUnder host (l.mask.getD [])

/-- Every line about the host that is no `allow ... to` line stands behind one that is. -/
def AllowFirst (lines : List RuleLine) (host : Text) : Prop :=
  ∀ pre l post, lines = pre ++ l :: post → l.about host = true → ¬ l.AllowTo →
    ∃ k ∈ pre, k.about host = true ∧ k.AllowTo

theorem isSome_whitelistRule {cfg : Config} {calls : List (Text × Text)}
    (hcfg : cfg.rulesets = parseAll [] calls) (host : Text) :
    (whitelistRule cfg host).isSome = ((globalLines calls).find? (·.about host)).isSome := by
  unfold whitelistRule
  rw [hcfg, getRuleset_globalLines, List.find?_map, Option.isSome_map]
  rfl

/-- A line about the host with a mask of its own names the host or a domain it lies under. -/
theorem RuleLine.under_of_about {l : RuleLine} {host : Text} (h : l.about host = true)
    (hmask : l.mask.isSome) : HostUnder host (l.mask.getD []) := by
  obtain ⟨m, hm⟩ := Option.isSome_iff_exists.mp hmask
  have hunder := hostUnder_of_matches h
  simpa [RuleLine.record, hm] using hunder

/-- The first line about the host is an `allow ... to` line exactly when every other kind of
    line about it stands behind one. -/
theorem find_allow_iff (lines : List RuleLine) (host : Text) :
    (∀ l, lines.find? (·.about host) = some l → l.AllowTo) ↔ AllowFirst lines host := by
  induction lines with
  | nil => simp [AllowFirst]
  | cons k lines ih =>
    cases hk : k.about host with
    | true =>
      rw [List.find?_cons_of_pos hk]
      constructor
      · intro hfirst pre l post hsplit habout hnot
        have hkallow := hfirst k rfl
        -- `l` is not the head, so the head stands before it
        cases pre with
        | nil =>
          obtain ⟨rfl, _⟩ := List.cons.inj hsplit
          exact absurd hkallow hnot
        | cons p pre =>
          obtain ⟨rfl, _⟩ := List.cons.inj hsplit
          exact ⟨k, List.mem_cons_self, hk, hkallow⟩
      · rintro hall l hl
        obtain rfl := Option.some.inj hl
        by_contra hnot
        obtain ⟨_, hmem, _⟩ := hall [] k lines rfl hk hnot
        cases hmem
    | false =>
      rw [List.find?_cons_of_neg (by simp [hk]), ih]
      constructor
      · intro hall pre l post hsplit habout hnot
        cases pre with
        | nil =>
          obtain ⟨rfl, _⟩ := List.cons.inj hsplit
          rw [hk] at habout
          cases habout
        | cons p pre =>
          obtain ⟨rfl, hrest⟩ := List.cons.inj hsplit
          obtain ⟨q, hq, hqa⟩ := hall pre l post hrest habout hnot
          exact ⟨q, List.mem_cons_of_mem k hq, hqa⟩
      · intro hall pre l post hsplit habout hnot
        obtain ⟨q, hq, hqa, hqt⟩ := hall (k :: pre) l post (by rw [hsplit]; rfl) habout hnot
        rcases List.mem_cons.mp hq with rfl | hq
        · rw [hk] at hqa
          cases hqa
        · exact ⟨q, hq, hqa, hqt⟩

/-- A request makes `http_callback_404` open the firewall only because of an `allow ... to`
    line if and only if the gateway or the auth server is offline, or every other line about
    the host stands behind such a line. -/
theorem whitelist_exact (cfg : Config) {calls : List (Text × Text)}
    (hcfg : cfg.rulesets = parseAll [] calls) (online authOnline : Bool) (arp : Option Text)
    (authServer : AuthServ) (r : Request) :
    DueToAllow (globalLines calls) r.host
        (httpCallback404 cfg online authOnline arp authServer r).1 ↔
      (online && authOnline) = false ∨ AllowFirst (globalLines calls) r.host := by
  rw [httpCallback404_fst, ← find_allow_iff]
  cases hup : (online && authOnline) with
  | false => simp [DueToAllow]
  | true =>
    have hsome : (if true = true then (whitelistRule cfg r.host).map fun _ => r.host
        else none).isSome = ((globalLines calls).find? (·.about r.host)).isSome := by
      rw [if_pos rfl, Option.isSome_map, isSome_whitelistRule hcfg]
    unfold DueToAllow
    rw [hsome]
    constructor
    · intro hdue
      refine Or.inr fun l hl => ?_
      obtain ⟨k, hk, hallow, _⟩ := hdue (by rw [hl]; rfl)
      rw [hk] at hl
      obtain rfl := Option.some.inj hl
      exact hallow
    · intro hall hfound
      obtain ⟨l, hl⟩ := Option.isSome_iff_exists.mp hfound
      have hallow : l.AllowTo := by
        rcases hall with hoff | hall
        · cases hoff
        · exact hall l hl
      exact ⟨l, hl, hallow, l.under_of_about (List.find?_some hl) hallow.mask⟩

/-- A configuration whose global ruleset is read from these lines. -/
def portalConfig (lines : List Text) : Config :=
  { smallConfig with rulesets := parseAll [] (lines.map fun line => (fwrulesetGlobal, line)) }

def portalServer : AuthServ :=
  ⟨"auth.example.com".toList, "/".toList, "login/?".toList, 80, 443, false, none⟩

/-- A captured request for the top page of a host. -/
def topPage (host : Text) : Request := ⟨"10.0.0.5".toList, host, "/".toList, []⟩

def allowLine : Text := "allow tcp port 80 to example.com".toList

def blockLine : Text := "block to ads.example.com".toList

theorem whitelist_exact_allowLine :
    DueToAllow (globalLines [(fwrulesetGlobal, allowLine)]) "www.example.com".toList
      (httpCallback404 (portalConfig [allowLine]) true true none portalServer
        (topPage "www.example.com".toList)).1 := by
  refine (@whitelist_exact (portalConfig [allowLine]) [(fwrulesetGlobal, allowLine)] rfl true true
    none portalServer (topPage "www.example.com".toList)).mpr (Or.inr ?_)
  rintro pre l post hsplit _ hnot
  have hlines : globalLines [(fwrulesetGlobal, allowLine)] =
      [⟨.accept, some "tcp".toList, some "80".toList, some "to".toList,
        some "example.com".toList, false⟩] := by decide +kernel
  rw [hlines] at hsplit
  cases pre with
  | nil =>
    obtain ⟨rfl, _⟩ := List.cons.inj hsplit
    exact absurd ⟨rfl, rfl, rfl, rfl⟩ hnot
  | cons p pre =>
    obtain ⟨_, hnil⟩ := List.cons.inj hsplit
    simp at hnil

/-- A host that the global ruleset blocks is opened for everyone. -/
theorem blocked_host_allowed :
    (httpCallback404 (portalConfig [blockLine]) true true none portalServer
        (topPage "ads.example.com".toList)).1 = some "ads.example.com".toList ∧
      (∀ l ∈ globalLines [(fwrulesetGlobal, blockLine)], l.target = .reject) ∧
      ¬ DueToAllow (globalLines [(fwrulesetGlobal, blockLine)]) "ads.example.com".toList
        (httpCallback404 (portalConfig [blockLine]) true true none portalServer
          (topPage "ads.example.com".toList)).1 := by
  have hall : ∀ l ∈ globalLines [(fwrulesetGlobal, blockLine)], l.target = .reject := by
    decide +kernel
  have hopened : (httpCallback404 (portalConfig [blockLine]) true true none portalServer
      (topPage "ads.example.com".toList)).1 = some "ads.example.com".toList := by
    rw [httpCallback404_fst]
    decide +kernel
  refine ⟨hopened, hall, fun hdue => ?_⟩
  obtain ⟨l, hl, hallow, _⟩ := hdue (by rw [hopened]; rfl)
  have hreject := hall l (List.mem_of_find?_eq_some hl)
  rw [hallow.target] at hreject
  cases hreject

end Wifidog
