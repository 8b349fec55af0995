/-
  The rules of the Incoming chain and the clients with access.

  An ACCEPT rule of the Incoming chain names an address only, while several records may have
  the same address. `iptables -D` takes the first rule that looks like the given one. So
  `fw_deny` and the replacement of a rule by `fw_allow` hit a client's own rule while every
  other client with access and the same address was granted later (`Orderly`). A client
  without access has no rule, but `fw_deny` deletes one for it all the same.

  The invariant is that the rules of the chain, with the clients they were installed for, are
  those of the clients with access (`Owned`).

  Proved: every orderly deed keeps it (`Deed.entries_onLedger`), so in every state of an
  orderly run the chain has one rule for each client with access, and a rule leaves the chain
  only by a deed of its own client (`incoming_own`). The denial of another client of the same
  address takes the rule away (`denial_takes_rule`).
-/
import Wifidog.Access.Sessions
import Wifidog.Accounting.Traffic

namespace Wifidog

open CText Netfilter Runs Meters

/-- The rule that a client with access has in the Incoming chain, with its owner. -/
def Client.entry (c : Client) : Nat × Rule Chain := (c.id, acceptRule c.ip)

/-- The client whose rules the deed deletes. -/
def Deed.revoked : Deed → Option Client
  | .allow c _ _ _ => if c.granted then some c else Option.none
  | .deny c _ => some c
  | .remove c => some c
  | _ => Option.none

/-- `c` has a rule, and it is older than those of `c'`. -/
def GrantedBefore (m : Metered) (c c' : Client) : Prop :=
  ∃ k ∈ m.incoming.chain, k.owner = c.id ∧
    ∀ k' ∈ m.incoming.chain, k'.owner = c'.id → k.serial < k'.serial

instance (m : Metered) (c c' : Client) : Decidable (GrantedBefore m c c') :=
  inferInstanceAs (Decidable (∃ k ∈ m.incoming.chain, k.owner = c.id ∧
    ∀ k' ∈ m.incoming.chain, k'.owner = c'.id → k.serial < k'.serial))

/-- Whoever else has access at the address was granted it after the client whose rules are
    deleted. -/
def Orderly (cfg : Config) (m : Metered) : MeterAction → Prop
  | .sys a => ∀ c ∈ (deedOf cfg m.sys a).revoked, ∀ c' ∈ m.sys.list.clients,
      c'.ip = c.ip → c'.granted = true → c'.id ≠ c.id → GrantedBefore m c c'
  | _ => True

instance (cfg : Config) (m : Metered) : (a : MeterAction) → Decidable (Orderly cfg m a)
  | .sys a => inferInstanceAs (Decidable (∀ c ∈ (deedOf cfg m.sys a).revoked,
      ∀ c' ∈ m.sys.list.clients, c'.ip = c.ip → c'.granted = true → c'.id ≠ c.id →
        GrantedBefore m c c'))
  | .traffic _ _ _ => isTrue trivial
  | .listing _ => isTrue trivial
  | .row _ _ => isTrue trivial

/-- The step is a preventive deletion. -/
def Prevents (m : Metered) : MeterAction → Prop
  | .row _ _ => ∃ r ∈ m.rows.head?, clientListFindByIp m.sys.list r.ip = none
  | _ => False

instance (m : Metered) : (a : MeterAction) → Decidable (Prevents m a)
  | .row _ _ => inferInstanceAs (Decidable (∃ r ∈ m.rows.head?,
      clientListFindByIp m.sys.list r.ip = none))
  | .sys _ => isFalse id
  | .traffic _ _ _ => isFalse id
  | .listing _ => isFalse id

structure Owned (m : Metered) : Prop where
  kept : Kept m
  entries : m.incoming.entries = grantsOf Client.entry m.sys.list.clients
  order : m.incoming.InOrder

/-! ## Deletions -/

/-- The rule that a deletion for `c` takes, if there is one, was installed for `c`. -/
def FirstIsOwn (g : Ledger (Rule Chain)) (c : Client) : Prop :=
  ∀ k, g.chain.find? (·.rule == acceptRule c.ip) = some k → k.owner = c.id

theorem Owned.first_own {m : Metered} (h : Owned m) {c : Client} (hc : c ∈ m.sys.list.clients)
    (hbefore : ∀ c' ∈ m.sys.list.clients, c'.ip = c.ip → c'.granted = true → c'.id ≠ c.id →
      GrantedBefore m c c') : FirstIsOwn m.incoming c := by
  -- a rule of the chain is that of a client with access
  have howned : ∀ k ∈ m.incoming.chain,
      ∃ d ∈ m.sys.list.clients, d.granted = true ∧ d.id = k.owner ∧ acceptRule d.ip = k.rule := by
    intro k hk
    have hmem : k.entry ∈ m.incoming.entries := mem_entries.mpr ⟨k, hk, rfl⟩
    rw [h.entries] at hmem
    obtain ⟨d, hd, hgranted, heq⟩ := mem_grantsOf.mp hmem
    exact ⟨d, hd, hgranted, Prod.mk.inj heq⟩
  intro k0 hfirst
  have hk0 : k0 ∈ m.incoming.chain := List.mem_of_find?_eq_some hfirst
  have hrule : k0.rule = acceptRule c.ip := by simpa using List.find?_some hfirst
  obtain ⟨c', hc', hgranted, hid, hacc⟩ := howned k0 hk0
  have hip : c'.ip = c.ip := acceptRule_inj (hacc.trans hrule)
  by_contra hne
  obtain ⟨k, hk, howner, hlt⟩ := hbefore c' hc' hip hgranted fun heq => hne (hid.symm.trans heq)
  -- the rule of `c` is older than the first one
  obtain ⟨d, hd, _, hdid, hdacc⟩ := howned k hk
  obtain rfl : d = c := h.kept.wf.id_inj hd hc (hdid.trans howner)
  have hle := first_le_of_order h.order hfirst hk hdacc.symm
  have hold := hlt k0 hk0 hid.symm
  omega

/-- A listed client has a rule if and only if it has access. -/
theorem entry_mem_iff {g : Ledger (Rule Chain)} {l : ClientList} (hwf : l.Wf) {c : Client}
    (hc : c ∈ l.clients) (h : g.entries = grantsOf Client.entry l.clients) :
    c.entry ∈ g.entries ↔ c.granted = true := by
  rw [h, mem_grantsOf]
  constructor
  · rintro ⟨d, hd, hgranted, heq⟩
    rwa [← hwf.id_inj hd hc (Prod.mk.inj heq).1]
  · exact fun hgranted => ⟨c, hc, hgranted, rfl⟩

/-- Deleting for a client takes its share away. -/
theorem entries_delete_own {g : Ledger (Rule Chain)} {c : Client}
    (hmine : c.entry ∈ g.entries ↔ c.granted = true) (hown : FirstIsOwn g c) :
    g.entries = (g.delete (acceptRule c.ip)).entries + c.shareOf Client.entry := by
  cases hf : g.chain.find? (·.rule == acceptRule c.ip) with
  | none =>
    have hnone : ¬ c.granted = true := by
      intro hgranted
      obtain ⟨k, hk, heq⟩ := mem_entries.mp (hmine.mpr hgranted)
      have := List.find?_eq_none.mp hf k hk
      simp [(Prod.mk.inj heq).2] at this
    have hsame : (g.delete (acceptRule c.ip)).entries = g.entries := by
      unfold Ledger.entries Ledger.delete
      rw [List.eraseP_of_forall_not (List.find?_eq_none.mp hf)]
    rw [hsame, Client.shareOf, if_neg hnone, add_zero]
  | some k =>
    have hrule : k.rule = acceptRule c.ip := by simpa using List.find?_some hf
    have hentry : k.entry = c.entry := Prod.ext (hown k hf) hrule
    have hgranted : c.granted = true := by
      rw [← hmine, ← hentry]
      exact mem_entries.mpr ⟨k, List.mem_of_find?_eq_some hf, rfl⟩
    rw [Client.shareOf, if_pos hgranted, ← hentry]
    exact entries_delete hf

/-! ## Deeds -/

theorem shareOf_entry {c d : Client} (hid : d.id = c.id) (hip : d.ip = c.ip)
    (hstate : d.fwConnectionState = c.fwConnectionState) :
    d.shareOf Client.entry = c.shareOf Client.entry := by
  unfold Client.shareOf Client.granted Client.entry
  rw [hid, hip, hstate]

theorem shareOf_none {c : Client} (h : c.fwConnectionState = fwMarkNone) :
    c.shareOf Client.entry = 0 := by
  simp [Client.shareOf, Client.granted, h]

/-- Rewriting a record changes its share and nothing else. -/
theorem grantsOf_write {l : ClientList} (hwf : l.Wf) {c d : Client} (hc : c ∈ l.clients)
    (hid : d.id = c.id) :
    ∃ rest, grantsOf Client.entry l.clients = c.shareOf Client.entry + rest ∧
      grantsOf Client.entry (clientListWrite l d).clients = d.shareOf Client.entry + rest ∧
      grantsOf Client.entry (clientListRemove l d).clients = rest := by
  obtain ⟨pre, post, hl, hwrite, hremove⟩ := hwf.split hc
  refine ⟨grantsOf Client.entry (pre ++ post), ?_, ?_, ?_⟩
  · rw [hl, grantsOf_middle]
  · rw [hwrite d hid, grantsOf_middle]
  · rw [hremove d hid]

section Deeds
variable {g : Ledger (Rule Chain)} {l : ClientList}

/-- Closing the account of a client, or not, leaves rules, owners and numbers alone. -/
theorem exists_update (g : Ledger (Rule Chain)) (cleared : Bool) (id : Nat) :
    ∃ f, (if cleared then g.close id else g) = g.update f ∧
      (∀ k, (f k).serial = k.serial) ∧ ∀ k, (f k).entry = k.entry := by
  cases cleared with
  | false =>
    refine ⟨fun k => k, ?_, fun _ => rfl, fun _ => rfl⟩
    simp [Ledger.update]
  | true =>
    refine ⟨_, rfl, fun k => ?_, fun k => ?_⟩
    · split <;> rfl
    · split <;> rfl

theorem FirstIsOwn.update {c : Client} (h : FirstIsOwn g c)
    {f : Meter (Rule Chain) → Meter (Rule Chain)} (hf : ∀ k, (f k).entry = k.entry) :
    FirstIsOwn (g.update f) c := by
  have hrule : ∀ k, (f k).rule = k.rule := fun k => (Prod.mk.inj (hf k)).2
  intro k hk
  unfold Ledger.update at hk
  rw [List.find?_map] at hk
  obtain ⟨k0, hk0, rfl⟩ := Option.map_eq_some_iff.mp hk
  have hfirst : g.chain.find? (·.rule == acceptRule c.ip) = some k0 := by
    rw [← hk0]
    congr 1
    funext k'
    show (k'.rule == acceptRule c.ip) = ((f k').rule == acceptRule c.ip)
    rw [hrule]
  exact (Prod.mk.inj (hf k0)).1.trans (h k0 hfirst)

/-- A new rule for the address of a client with access comes after the client's own. -/
theorem FirstIsOwn.install {c : Client} (h : FirstIsOwn g c) {k : Meter (Rule Chain)}
    (hk : k.owner = c.id) : FirstIsOwn (g.install k) c := by
  intro k0 hk0
  unfold Ledger.install at hk0
  rw [List.find?_append] at hk0
  cases hf : g.chain.find? (·.rule == acceptRule c.ip) with
  | some k1 =>
    rw [hf] at hk0
    obtain rfl := Option.some.inj hk0
    exact h k1 hf
  | none =>
    rw [hf, Option.none_or] at hk0
    have hmem := List.mem_of_find?_eq_some hk0
    rw [List.mem_singleton.mp hmem]
    exact hk

/-- `fw_allow` gives the client one rule, whether or not it had one. -/
theorem entries_allow (hwf : l.Wf) {c : Client} (hc : c ∈ l.clients)
    (h : g.entries = grantsOf Client.entry l.clients) (token : Text) {mark : Int}
    (hmark : mark ≠ fwMarkNone) (cleared : Bool) (serial : Nat)
    (hown : c.granted = true → FirstIsOwn g c) :
    ((Deed.allow c token mark cleared).onLedger .incoming serial g).entries =
      grantsOf Client.entry ((Deed.allow c token mark cleared).list l).clients := by
  obtain ⟨rest, hold, hnew, _⟩ := @grantsOf_write l hwf c
    { Deed.allowed c token cleared with fwConnectionState := mark } hc rfl
  have hshare : ({ Deed.allowed c token cleared with fwConnectionState := mark } :
      Client).shareOf Client.entry = {c.entry} := by
    rw [Client.shareOf, if_pos (by simpa [Client.granted] using hmark)]
    rfl
  obtain ⟨f, hclosed, _, hentry⟩ := exists_update g cleared c.id
  have hsame : (g.update f).entries = g.entries := entries_update hentry
  unfold Deed.onLedger Deed.list
  dsimp only
  rw [hnew, hshare, hclosed]
  split
  · next hstate =>
    have hgranted : c.granted = true := by simpa [Client.granted] using hstate
    have hfirst : FirstIsOwn (g.update f) c := (hown hgranted).update hentry
    have hdel := entries_delete_own (c := c) (g := (g.update f).install
      ⟨serial, c.id, ruleFor .incoming c mark, 0, 0, false⟩) ?_ (hfirst.install rfl)
    · rw [entries_install, hsame, h, hold, Client.shareOf, if_pos hgranted] at hdel
      exact (add_right_cancel hdel).symm
    · rw [entries_install]
      refine ⟨fun _ => hgranted, fun _ => ?_⟩
      exact Multiset.mem_add.mpr (Or.inr (Multiset.mem_singleton_self _))
  · next hstate =>
    rw [entries_install, hsame, h, hold, shareOf_none (not_not.mp hstate), zero_add, add_comm]
    rfl

/-- Every deed but the preventive deletion keeps the rules those of the clients with access. -/
theorem Deed.entries_onLedger (hwf : l.Wf) {d : Deed} (hv : d.Valid l)
    (h : g.entries = grantsOf Client.entry l.clients) (serial : Nat)
    (hprev : ∀ print ip, d ≠ .prevent print ip) (hown : ∀ c ∈ d.revoked, FirstIsOwn g c) :
    (d.onLedger .incoming serial g).entries = grantsOf Client.entry (d.list l).clients := by
  -- a record that keeps id, address and state
  have hsame : ∀ {c e : Client}, c ∈ l.clients → e.id = c.id → e.ip = c.ip →
      e.fwConnectionState = c.fwConnectionState →
      g.entries = grantsOf Client.entry (clientListWrite l e).clients := by
    intro c e hc hid hip hstate
    obtain ⟨rest, hold, hnew, _⟩ := grantsOf_write hwf hc hid
    rw [h, hold, hnew, shareOf_entry hid hip hstate]
  cases d with
  | none => exact h
  | add ip mac token now =>
    refine h.trans ?_
    have hcs := grantsOf_middle Client.entry [] l.clients
      { id := l.clientId, ip, mac, token, fwConnectionState := fwMarkNone, fd := 0
        counters := .fresh now }
    rw [shareOf_none rfl, zero_add] at hcs
    exact hcs.symm
  | retoken c token => exact hsame (hv.member c rfl) rfl rfl rfl
  | count c counters => exact hsame (hv.member c rfl) rfl rfl rfl
  | allow c token mark cleared =>
    refine entries_allow hwf (hv.member c rfl) h token (hv.mark c token mark cleared rfl) cleared
      serial fun hgranted => hown c ?_
    simp [Deed.revoked, hgranted]
  | deny c token =>
    have hc : c ∈ l.clients := hv.member c rfl
    obtain ⟨rest, hold, hnew, _⟩ := @grantsOf_write l hwf c
      { c with token := token, fwConnectionState := fwMarkNone } hc rfl
    have hdel := entries_delete_own (entry_mem_iff hwf hc h) (hown c rfl)
    rw [h, hold, add_comm] at hdel
    refine (add_right_cancel hdel).symm.trans ?_
    show rest = grantsOf Client.entry (clientListWrite l _).clients
    rw [hnew, shareOf_none rfl, zero_add]
  | remove c =>
    have hc : c ∈ l.clients := hv.member c rfl
    obtain ⟨rest, hold, _, hnew⟩ := @grantsOf_write l hwf c c hc rfl
    have hdel := entries_delete_own (entry_mem_iff hwf hc h) (hown c rfl)
    rw [h, hold, add_comm] at hdel
    exact (add_right_cancel hdel).symm.trans hnew.symm
  | prevent print ip => exact absurd rfl (hprev print ip)

theorem Deed.inOrder_onLedger (h : g.InOrder) {serial : Nat}
    (hserial : ∀ k ∈ g.chain, k.serial < serial) {d : Deed}
    (hprev : ∀ print ip, d ≠ .prevent print ip) :
    (d.onLedger .incoming serial g).InOrder := by
  cases d with
  | allow c token mark cleared =>
    obtain ⟨f, hclosed, hf, _⟩ := exists_update g cleared c.id
    have hbelow : ∀ k ∈ (g.update f).chain, k.serial < serial := by
      intro k hk
      obtain ⟨k0, hk0, rfl⟩ := List.mem_map.mp hk
      rw [hf]
      exact hserial k0 hk0
    have hinstalled : ((g.update f).install
        ⟨serial, c.id, ruleFor .incoming c mark, 0, 0, false⟩).InOrder :=
      inOrder_install (inOrder_update h hf) hbelow
    unfold Deed.onLedger
    dsimp only
    rw [hclosed]
    split
    · exact inOrder_delete hinstalled _
    · exact hinstalled
  | deny c token => exact inOrder_delete h _
  | remove c => exact inOrder_delete h _
  | prevent print ip => exact absurd rfl (hprev print ip)
  | _ => exact h

/-- A rule leaves the chain only when its own client's rules are deleted. -/
theorem Deed.stays_onLedger {d : Deed} (hprev : ∀ print ip, d ≠ .prevent print ip)
    (hown : ∀ c ∈ d.revoked, FirstIsOwn g c) (serial : Nat) {k : Meter (Rule Chain)}
    (hk : k ∈ g.chain) :
    (∃ k' ∈ (d.onLedger .incoming serial g).chain, k'.serial = k.serial) ∨
      ∃ c ∈ d.revoked, k.owner = c.id := by
  have hdel : ∀ {g' : Ledger (Rule Chain)} {k' : Meter (Rule Chain)} {c : Client},
      k' ∈ g'.chain → k'.serial = k.serial → k'.owner = k.owner → FirstIsOwn g' c →
      c ∈ d.revoked → (∃ k' ∈ (g'.delete (acceptRule c.ip)).chain, k'.serial = k.serial) ∨
        ∃ c ∈ d.revoked, k.owner = c.id := by
    intro g' k' c hk' hserial howner hfirst hc
    rcases mem_delete hk' (acceptRule c.ip) with hkept | hgone
    · exact Or.inl ⟨k', hkept, hserial⟩
    · exact Or.inr ⟨c, hc, howner.symm.trans (hfirst k' hgone)⟩
  cases d with
  | allow c token mark cleared =>
    obtain ⟨f, hclosed, hserial, hentry⟩ := exists_update g cleared c.id
    have hk' : f k ∈ (g.update f).chain := List.mem_map_of_mem hk
    have howner : (f k).owner = k.owner := (Prod.mk.inj (hentry k)).1
    unfold Deed.onLedger
    dsimp only
    rw [hclosed]
    split
    · next hstate =>
      have hc : c ∈ (Deed.allow c token mark cleared).revoked := by
        simpa [Deed.revoked, Client.granted] using hstate
      have hfirst : FirstIsOwn (g.update f) c := (hown c hc).update hentry
      exact hdel (List.mem_append_left _ hk') (hserial k) howner (hfirst.install rfl) hc
    · exact Or.inl ⟨f k, List.mem_append_left _ hk', hserial k⟩
  | deny c token => exact hdel hk rfl rfl (hown c rfl) rfl
  | remove c => exact hdel hk rfl rfl (hown c rfl) rfl
  | prevent print ip => exact absurd rfl (hprev print ip)
  | _ => exact Or.inl ⟨k, hk, rfl⟩

end Deeds

/-! ## Steps and runs -/

/-- A step of the system that deletes no rule of another client and nothing preventively. -/
theorem Performs.owned {cfg : Config} {m m' : Metered} {a : Action} (h : Performs cfg m a m')
    (ho : Owned m) (hprev : ∀ print ip, deedOf cfg m.sys a ≠ .prevent print ip)
    (hown : ∀ c ∈ (deedOf cfg m.sys a).revoked, FirstIsOwn m.incoming c) : Owned m' where
  kept := h.kept ho.kept
  entries := by
    have hdoes := step_deed h.step
    have hledger : m'.incoming = _ := h.ledger .incoming
    rw [hledger, hdoes.list]
    exact Deed.entries_onLedger ho.kept.wf hdoes.valid ho.entries m.serial hprev hown
  order := by
    have hledger : m'.incoming = _ := h.ledger .incoming
    rw [hledger]
    refine Deed.inOrder_onLedger ho.order (fun k hk => ?_) hprev
    exact (ho.kept.meters .incoming k (List.mem_append_left _ hk)).serial

/-- Counting and reading leave rules and owners alone. -/
theorem Owned.update {m : Metered} (ho : Owned m) {dir : Direction} {rows : List Row}
    {f : Meter (Rule Chain) → Meter (Rule Chain)} (hserial : ∀ k, (f k).serial = k.serial)
    (hentry : ∀ k, (f k).entry = k.entry)
    (hk : Kept ({ m with rows := rows }.setLedger dir ((m.ledger dir).update f))) :
    Owned ({ m with rows := rows }.setLedger dir ((m.ledger dir).update f)) := by
  refine ⟨hk, ?_, ?_⟩
  · cases dir with
    | outgoing => exact ho.entries
    | incoming => exact (entries_update hentry).trans ho.entries
  · cases dir with
    | outgoing => exact ho.order
    | incoming => exact inOrder_update ho.order hserial

/-- The step of the system in a step of the metered gateway revokes in order. -/
theorem Owned.revoked_own {cfg : Config} {m m' : Metered} {a : Action} (ho : Owned m)
    (h : Performs cfg m a m') (horder : Orderly cfg m (.sys a)) :
    ∀ c ∈ (deedOf cfg m.sys a).revoked, FirstIsOwn m.incoming c := by
  intro c hc
  refine ho.first_own ?_ (horder c hc)
  have hvalid := (step_deed h.step).valid
  revert hc hvalid
  cases deedOf cfg m.sys a with
  | allow c' token mark cleared =>
    intro hc hvalid
    simp only [Deed.revoked] at hc
    split at hc
    · obtain rfl := Option.some.inj hc
      exact hvalid.member c' rfl
    · cases hc
  | deny c' token => exact fun hc hvalid => Option.some.inj hc ▸ hvalid.member c' rfl
  | remove c' => exact fun hc hvalid => Option.some.inj hc ▸ hvalid.member c' rfl
  | _ => exact fun hc => nomatch hc

/-- Only rows are answered by a preventive deletion. -/
theorem not_prevent_of_allows {cfg : Config} {m : Metered} {a : Action} (h : m.allows a = true)
    (print : Rule Chain → Text) (ip : Text) : deedOf cfg m.sys a ≠ .prevent print ip := by
  intro hd
  have hrow : (deedOf cfg m.sys a).ofRow = true := by
    rw [hd]
    rfl
  obtain ⟨_, _, _, _, _, rfl⟩ := deedOf_ofRow hrow
  cases h

theorem meterStep_owned {cfg : Config} {m m' : Metered} {a : MeterAction} (ho : Owned m)
    (hprev : ¬ Prevents m a) (horder : Orderly cfg m a) (hstep : meterStep cfg m a = some m') :
    Owned m' := by
  have hk' := meterStep_kept hstep ho.kept
  cases meterStep_moved hstep with
  | sys hallows h =>
    exact h.owned ho (not_prevent_of_allows hallows) (ho.revoked_own h horder)
  | traffic hk hn =>
    refine ho.update (fun k => ?_) (fun k => ?_) hk'
    · split <;> rfl
    · split <;> rfl
  | listing _ _ => exact ⟨hk', ho.entries, ho.order⟩
  | @row print now r m' h =>
    obtain ⟨m1, hm1, heq⟩ := h.performs
    obtain ⟨p1, hf⟩ : ∃ p1, clientListFindByIp m.sys.list r.ip = some p1 := by
      refine Option.ne_none_iff_exists'.mp fun hnone => hprev ⟨r, ?_, hnone⟩
      rw [h.rows]
      rfl
    have hdeed := deedOf_countersRow_some cfg hf print r.dir r.counter now
    have ho1 : Owned m1 := by
      refine hm1.owned ho ?_ ?_
      · rw [hdeed]
        exact fun _ _ hd => nomatch hd
      · rw [hdeed]
        exact fun _ hc => nomatch hc
    rw [heq] at hk' ⊢
    refine ho1.update (fun k => ?_) (fun k => ?_) hk'
    · split <;> rfl
    · split <;> rfl

theorem FreshMetered.owned {m : Metered} (h : FreshMetered m) : Owned m := by
  refine ⟨h.kept, ?_, ?_⟩
  · rw [h.incoming, h.sys.list]
    rfl
  · rw [h.incoming]
    exact List.Pairwise.nil

/-- The rules for an address are as many as the clients with access at it. -/
theorem Owned.count {m : Metered} (ho : Owned m) (ip : Text) :
    m.incoming.rules.count (acceptRule ip) =
      m.sys.list.clients.countP fun c => c.ip == ip && c.granted := by
  have hrules : (↑m.incoming.rules : Multiset (Rule Chain)) =
      grantsOf (fun c => acceptRule c.ip) m.sys.list.clients := by
    have hmap := congrArg (Multiset.map Prod.snd) ho.entries
    simpa [Ledger.entries, Ledger.rules, grantsOf, Meter.entry, Client.entry,
      Function.comp_def] using hmap
  rw [← Multiset.coe_count, hrules, grantsOf, Multiset.coe_count, List.count_eq_countP,
    List.countP_map, List.countP_filter]
  refine List.countP_congr fun c _ => ?_
  have hrule : acceptRule c.ip = acceptRule ip ↔ c.ip = ip :=
    ⟨acceptRule_inj, fun h => by rw [h]⟩
  simp [hrule]

/-- In every state of an orderly run without preventive deletion, the Incoming chain has as
    many ACCEPT rules for an address as there are listed clients with access at it, and
    whatever orderly step of the system comes next, a rule leaves the chain only when the
    rules of the client it was installed for are deleted. -/
theorem incoming_own (cfg : Config) {m0 m : Metered} {as : List MeterAction}
    (h0 : FreshMetered m0) (hrun : run (meterStep cfg) m0 as = some m)
    (hprev : Along (meterStep cfg) (fun m a => ¬ Prevents m a) m0 as)
    (horder : Along (meterStep cfg) (Orderly cfg) m0 as) :
    (∃ rs, m.sys.tables.view .mangle .incoming = some rs ∧
      ∀ ip, rs.count (acceptRule ip) =
        m.sys.list.clients.countP fun c => c.ip == ip && c.granted) ∧
    ∀ a m', meterStep cfg m (.sys a) = some m' → Orderly cfg m (.sys a) →
      ∀ k ∈ m.incoming.chain, (∃ k' ∈ m'.incoming.chain, k'.serial = k.serial) ∨
        ∃ c ∈ (deedOf cfg m.sys a).revoked, k.owner = c.id := by
  have ho : Owned m :=
    run_inv_along Owned (fun _ _ _ h hp hs => meterStep_owned h hp.1 hp.2 hs) h0.owned
      (along_and hprev horder) hrun
  refine ⟨⟨m.incoming.rules, ho.kept.chains .incoming, ho.count⟩, ?_⟩
  intro a m' hstep hlast k hk
  cases meterStep_moved hstep with
  | sys hallows h =>
    have hledger : m'.incoming = _ := h.ledger .incoming
    rw [hledger]
    exact Deed.stays_onLedger (not_prevent_of_allows hallows) (ho.revoked_own h hlast) m.serial hk

/-- Two clients of one address log in one after the other, and the first logs out. -/
def firstLeaves : List MeterAction :=
  (smallLogin ++ loginActions smallIp otherMac "u".toList authAllowed ++
    [Action.httpCallbackAuth smallIp (some smallMac) (some "t".toList) true 0]).map .sys

theorem incoming_own_small :
    (∃ rs, (meterRun firstLeaves).sys.tables.view .mangle .incoming = some rs ∧
      ∀ ip, rs.count (acceptRule ip) =
        (meterRun firstLeaves).sys.list.clients.countP fun c => c.ip == ip && c.granted) ∧
    (meterRun firstLeaves).sys.list.clients.countP (fun c => c.ip == smallIp && c.granted) = 1 := by
  have hrun : run (meterStep smallConfig) meterStart firstLeaves = some (meterRun firstLeaves) := by
    decide +kernel
  have hprev : Along (meterStep smallConfig) (fun m a => ¬ Prevents m a) meterStart
      firstLeaves := by
    decide +kernel
  have horder : Along (meterStep smallConfig) (Orderly smallConfig) meterStart firstLeaves := by
    decide +kernel
  have hleft : (meterRun firstLeaves).sys.list.clients.countP
      (fun c => c.ip == smallIp && c.granted) = 1 := by
    decide +kernel
  exact ⟨(incoming_own smallConfig meterStart_fresh hrun hprev horder).1, hleft⟩

/-- A client has access, and another one of the same address is denied its first login. -/
def otherDenied : List MeterAction :=
  (smallLogin ++ loginActions smallIp otherMac "u".toList authDenied).map .sys

theorem denial_takes_rule :
    FreshMetered meterStart ∧
    run (meterStep smallConfig) meterStart otherDenied = some (meterRun otherDenied) ∧
    Along (meterStep smallConfig) (fun m a => ¬ Prevents m a) meterStart otherDenied ∧
    (meterRun otherDenied).sys.tables.view .mangle .incoming = some [] ∧
    (meterRun otherDenied).sys.list.clients.countP (fun c => c.ip == smallIp && c.granted) = 1 := by
  have hrun : run (meterStep smallConfig) meterStart otherDenied = some (meterRun otherDenied) := by
    decide +kernel
  have hprev : Along (meterStep smallConfig) (fun m a => ¬ Prevents m a) meterStart
      otherDenied := by
    decide +kernel
  have hchain : (meterRun otherDenied).sys.tables.view .mangle .incoming = some [] := by
    decide +kernel
  have hgranted : (meterRun otherDenied).sys.list.clients.countP
      (fun c => c.ip == smallIp && c.granted) = 1 := by
    decide +kernel
  exact ⟨meterStart_fresh, hrun, hprev, hchain, hgranted⟩

end Wifidog
