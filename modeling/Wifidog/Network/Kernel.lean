/-
  What `arp_get` and `get_ext_iface` find in the kernel's tables.

  `arp_get_lookup`: the loop ends on every text, and whatever it returns has the characters of a MAC
  and no more than 17 of them; on a table it is the entry of the address. `ext_iface_detected`: the
  same for the interface. The column that `get_ext_iface` compares with zero is the third one, the
  gateway: the interface is that of the first route without a gateway, whatever its destination.
-/
import Wifidog.Model.Proc

namespace Wifidog

open CText Scanf

/-! ## Lines in front of a table -/

theorem skipLine_header {header : Text} (h : '\n' ∉ header) (text : Text) (e : Bool) :
    Stream.skipLine ⟨header ++ '\n' :: text, e⟩ = ⟨text, e⟩ := by
  have hpass : ∀ c ∈ header, (c != '\n') = true := by
    intro c hc
    exact bne_iff_ne.mpr fun heq => h (heq ▸ hc)
  unfold Stream.skipLine
  rw [List.dropWhile_append_of_pos hpass, List.dropWhile_cons_of_neg (by simp)]

theorem length_skipLine (s : Stream) : s.skipLine.rest.length ≤ s.rest.length := by
  unfold Stream.skipLine
  have hle := List.length_dropWhile_le (· != '\n') s.rest
  split
  · exact Nat.zero_le _
  · next rest heq =>
    rw [heq, List.length_cons] at hle
    exact Nat.le_of_succ_le hle

/-! ## The ARP cache -/

/-- IP address, HW type, Flags, HW address, Mask, Device -/
def arpColumns : List Directive :=
  [.word false none, .word false none, .set true 17 macChars, .word false none, .word false none]

theorem arpFormat_follows : Follows arpFormat (.set true 15 addressChars) arpColumns :=
  .of_spaced (by simp) (Or.inl rfl) fun _ => rfl

theorem arp_progresses (reqIp : Text) (s : Stream)
    (h : ((fscanf arpFormat s).1.length == 2 && (arpReply reqIp (fscanf arpFormat s).1).isNone) =
      true) : Progresses s (fscanf arpFormat s).2 := by
  refine Or.inr ((length_fscanf arpFormat s).2 fun hnil => ?_)
  rw [hnil] at h
  cases h

theorem arpReply_eq_some {reqIp mac : Text} {vs : List Text} (h : arpReply reqIp vs = some mac) :
    vs = [reqIp, mac] := by
  unfold arpReply at h
  split at h
  · obtain ⟨rfl, hmac⟩ := Option.ite_none_right_eq_some.mp h
    rw [Option.some.inj hmac]
  · cases h

theorem findSome?_arpReply (entries : List (Text × Text)) (reqIp : Text) :
    (entries.map fun e => [e.1, e.2]).findSome? (arpReply reqIp) = entries.lookup reqIp := by
  induction entries with
  | nil => rfl
  | cons e entries ih =>
    obtain ⟨ip, mac⟩ := e
    rw [List.map_cons, List.findSome?_cons, ih, List.lookup_cons]
    by_cases heq : ip = reqIp
    · simp [arpReply, heq]
    · have hne : (reqIp == ip) = false := beq_eq_false_iff_ne.mpr (Ne.symm heq)
      simp [arpReply, heq, hne]

/-- What `arp_get` can return on any text. -/
theorem arpGet_mac {file : Option Text} {reqIp mac : Text} (h : arpGet file reqIp = some (some mac)) :
    mac ≠ [] ∧ mac.length ≤ 17 ∧ ∀ c ∈ mac, inRanges macChars c = true := by
  unfold arpGet at h
  split at h
  · cases h
  · obtain ⟨rows, hrows, hfind⟩ := Option.map_eq_some_iff.mp h
    obtain ⟨vs, hvs, hreply⟩ := List.exists_of_findSome?_eq_some hfind
    obtain ⟨s, hcall⟩ := mem_readRows hrows hvs
    obtain ⟨ds, hprefix, hyields⟩ := fscanf_yields arpFormat s
    rw [hcall, arpReply_eq_some hreply] at hyields
    -- two values: the conversions are the two that assign
    have hlen : ds.length = 2 := hyields.length_eq
    have hds : ds = [.set true 15 addressChars, .set true 17 macChars] :=
      hprefix.eq_of_length hlen
    rw [hds] at hyields
    cases hyields with
    | cons _ hrest =>
      cases hrest with
      | cons hmac _ => exact ⟨hmac.2.1, hmac.2.2.2, hmac.2.2.1⟩

/-- `arp_get` ends on every text and returns nothing but the characters of a MAC; on a table it
    returns the entry of the address. -/
theorem arp_get_lookup (reqIp : Text) :
    (∀ file, (arpGet file reqIp).isSome = true) ∧
    (∀ file mac, arpGet file reqIp = some (some mac) →
      mac ≠ [] ∧ mac.length ≤ 17 ∧ ∀ c ∈ mac, inRanges macChars c = true) ∧
    ∀ {header text : Text} {entries : List (Text × Text)}, '\n' ∉ header →
      Table (.set true 15 addressChars :: arpColumns) text (entries.map fun e => [e.1, e.2]) →
      arpGet (some (header ++ '\n' :: text)) reqIp = some (entries.lookup reqIp) := by
  refine ⟨fun file => ?_, fun file mac => arpGet_mac, fun {header text entries} hheader htable => ?_⟩
  · cases file with
    | none => rfl
    | some text =>
      unfold arpGet
      dsimp only
      rw [Option.isSome_map]
      refine readRows_isSome (arp_progresses reqIp) ?_
      have := length_skipLine (Stream.open text)
      simp only [Stream.open] at this ⊢
      omega
  · unfold arpGet
    dsimp only
    rw [Stream.open, skipLine_header hheader]
    have hfuel : text.length + 1 < (header ++ '\n' :: text).length + 2 := by
      simp only [List.length_append, List.length_cons]
      omega
    obtain ⟨extra, hextra, hread⟩ := readRows_of_table arpFormat_follows
      (fun vs => vs.length == 2 && (arpReply reqIp vs).isNone) htable hfuel (Or.inl rfl)
    rw [hread, Option.map_some, findSome?_upTo rfl hextra, findSome?_arpReply]
    intro ws hws hnone
    obtain ⟨e, -, rfl⟩ := List.mem_map.mp hws
    rw [hnone]
    rfl

/-- A cache with one entry, as the kernel prints it. -/
def smallArpHeader : Text :=
  "IP address       HW type     Flags       HW address            Mask     Device".toList

def smallArpCells : List (Text × Text) :=
  [([], "10.0.0.5".toList), ("         ".toList, "0x1".toList), ("         ".toList, "0x2".toList),
   ("         ".toList, "00:16:3e:00:00:0a".toList), ("     ".toList, "*".toList),
   ("        ".toList, "eth1".toList)]

theorem arp_get_small :
    arpGet (some (smallArpHeader ++ '\n' :: row smallArpCells ['\n'])) "10.0.0.5".toList =
      some (some "00:16:3e:00:00:0a".toList) := by
  have htable : Table (.set true 15 addressChars :: arpColumns) (row smallArpCells ['\n'])
      ([("10.0.0.5".toList, "00:16:3e:00:00:0a".toList)].map fun e => [e.1, e.2]) :=
    .cons (reads_row (by decide) ⟨'\n', [], rfl, rfl⟩) (.nil (by decide))
  exact (arp_get_lookup "10.0.0.5".toList).2.2 (by decide) htable

/-! ## The routes -/

/-- Iface, Destination, Gateway, Flags, RefCnt, Use, Metric, Mask, MTU, Window, IRTT -/
def routeColumns : List Directive :=
  [.word false none, .word true (some 15), .word false none, .word false none, .word false none,
   .word false none, .word false none, .word false none, .word false none, .word false none]

theorem routeFormat_follows : Follows routeFormat (.word true (some 15)) routeColumns :=
  .of_spaced (by simp) (Or.inr rfl) fun s => (fscanf_space_word true (some 15) _ s).symm

/-- The first device without a gateway. -/
def connected (routes : List (Text × Text)) : Option Text :=
  (routes.find? fun r => r.2 == "00000000".toList).map Prod.fst

theorem routeDevice_eq_some {device : Text} {vs : List Text} (h : routeDevice vs = some device) :
    ∃ gw, vs = [device, gw] := by
  unfold routeDevice at h
  split at h
  · next d gw =>
    obtain ⟨-, hd⟩ := Option.ite_none_right_eq_some.mp h
    exact ⟨gw, by rw [Option.some.inj hd]⟩
  · cases h

theorem findSome?_routeDevice (routes : List (Text × Text)) :
    (routes.map fun r => [r.1, r.2]).findSome? routeDevice = connected routes := by
  unfold connected
  induction routes with
  | nil => rfl
  | cons r routes ih =>
    obtain ⟨device, gw⟩ := r
    rw [List.map_cons, List.findSome?_cons, ih, List.find?_cons]
    by_cases hzero : gw = "00000000".toList
    · simp [routeDevice, hzero]
    · have hne : (gw == "00000000".toList) = false := beq_eq_false_iff_ne.mpr hzero
      simp only [routeDevice, if_neg hzero, hne]

theorem detectIface_isSome (text : Text) : (detectIface text).isSome = true := by
  unfold detectIface
  rw [Option.isSome_map]
  refine readRows_isSome (fun s _ => progresses_word (by simp) true _ s) ?_
  exact Nat.lt_succ_self _

theorem detectIface_table {text : Text} {routes : List (Text × Text)}
    (h : Table (.word true (some 15) :: routeColumns) text (routes.map fun r => [r.1, r.2])) :
    detectIface text = some (connected routes) := by
  obtain ⟨extra, hextra, hread⟩ := readRows_of_table routeFormat_follows
    (fun vs => (routeDevice vs).isNone) h (Nat.lt_succ_self _) (Or.inl rfl)
  unfold detectIface
  rw [Stream.open, hread, Option.map_some, findSome?_upTo rfl hextra, findSome?_routeDevice]
  intro ws _ hnone
  rw [hnone]
  rfl

theorem detectIface_name {text device : Text} (h : detectIface text = some (some device)) :
    device ≠ [] ∧ device.length ≤ 15 ∧ ∀ c ∈ device, isSpace c = false := by
  obtain ⟨rows, hrows, hfind⟩ := Option.map_eq_some_iff.mp h
  obtain ⟨vs, hvs, hreply⟩ := List.exists_of_findSome?_eq_some hfind
  obtain ⟨s, hcall⟩ := mem_readRows hrows hvs
  obtain ⟨ds, hprefix, hyields⟩ := fscanf_yields routeFormat s
  obtain ⟨gw, rfl⟩ := routeDevice_eq_some hreply
  rw [hcall] at hyields
  have hlen : ds.length = 2 := hyields.length_eq
  have hds : ds = [.word true (some 15), .word true (some 15)] := hprefix.eq_of_length hlen
  rw [hds] at hyields
  cases hyields with
  | cons hdevice _ => exact ⟨hdevice.2.1, hdevice.2.2.2 15 rfl, hdevice.2.2.1⟩

/-- `get_ext_iface`: every reading of the routes ends; a name that is returned fits its buffer and
    has no white space; and from tables, one for each try, it returns the first device without a
    gateway of the first table that has one, and goes on trying while none has. -/
theorem ext_iface_detected :
    (∀ text, (detectIface text).isSome = true) ∧
    (∀ tries device, getExtIface tries = some (some device) →
      device ≠ [] ∧ device.length ≤ 15 ∧ ∀ c ∈ device, isSpace c = false) ∧
    ∀ tables : List (Text × List (Text × Text)),
      (∀ t ∈ tables, Table (.word true (some 15) :: routeColumns) t.1
        (t.2.map fun r => [r.1, r.2])) →
      getExtIface (tables.map fun t => some t.1) =
        (tables.findSome? fun t => connected t.2).map some := by
  refine ⟨detectIface_isSome, fun tries device h => ?_, fun tables htables => ?_⟩
  · induction tries with
    | nil => cases h
    | cons file tries ih =>
      cases file with
      | none => cases h
      | some text =>
        rw [getExtIface] at h
        obtain ⟨found, hfound, h⟩ := Option.bind_eq_some_iff.mp h
        cases found with
        | none => exact ih h
        | some d =>
          obtain rfl := Option.some.inj (Option.some.inj h)
          exact detectIface_name hfound
  · induction tables with
    | nil => rfl
    | cons t tables ih =>
      have hrest := ih fun u hu => htables u (List.mem_cons_of_mem t hu)
      rw [List.map_cons, getExtIface, detectIface_table (htables t List.mem_cons_self),
        Option.bind_some, List.findSome?_cons, hrest]
      cases connected t.2 <;> rfl

def tabbed (words : List String) : List (Text × Text) := words.map fun w => (['\t'], w.toList)

def defaultRoute : List (Text × Text) :=
  tabbed ["eth0", "00000000", "0102A8C0", "0003", "0", "0", "0", "00000000", "0", "0", "0"]

def connectedRoute : List (Text × Text) :=
  tabbed ["eth1", "0002A8C0", "00000000", "0001", "0", "0", "0", "00FFFFFF", "0", "0", "0"]

/-- No route at the first try; at the second the default route, which has a gateway, is passed
    over. -/
theorem ext_iface_small :
    getExtIface [some [], some (row defaultRoute (row connectedRoute ['\n']))] =
      some (some "eth1".toList) := by
  have hempty : Table (.word true (some 15) :: routeColumns) []
      (([] : List (Text × Text)).map fun r => [r.1, r.2]) := .nil (by decide)
  have htable : Table (.word true (some 15) :: routeColumns)
      (row defaultRoute (row connectedRoute ['\n']))
      ([("eth0".toList, "0102A8C0".toList), ("eth1".toList, "00000000".toList)].map
        fun r => [r.1, r.2]) :=
    .cons (reads_row (by decide) ⟨'\t', _, rfl, rfl⟩)
      (.cons (reads_row (by decide) ⟨'\n', [], rfl, rfl⟩) (.nil (by decide)))
  have htables := ext_iface_detected.2.2
    [([], []), (row defaultRoute (row connectedRoute ['\n']),
      [("eth0".toList, "0102A8C0".toList), ("eth1".toList, "00000000".toList)])]
  refine (htables fun t ht => ?_).trans (by decide)
  rcases List.mem_cons.mp ht with rfl | ht
  · exact hempty
  · obtain rfl := List.mem_singleton.mp ht
    exact htable

end Wifidog
