/-
  Login links, from the bytes of a connection to the firewall.

  Every token that the gateway holds or has sent to an auth server came in by a login link that
  was followed from the address it is held for (`tokens_from_links`), in whatever order the
  threads take their lock sections and whatever the requests are, as long as no request overruns
  its buffers and no two lookups of pages overlap (`Server.Overlap` is about those that do). In
  the other direction a login link does what it is for: followed by a browser in any number of
  packets, it asks the auth server about its token, and if the answer is yes the client has
  access, and nothing else has changed (`link_opens`).

  `Tokens` is the invariant: a relation between addresses and tokens that holds of every record,
  every copy of one and every request.
-/
import Wifidog.Access.Deeds
import Wifidog.Access.Logout
import Wifidog.Access.Threads
import Wifidog.Model.Web
import Wifidog.Server.Dispatch
import Wifidog.Server.Requests

namespace Wifidog

open CText Netfilter Runs

/-! ## Tokens -/

section Tokens
variable {seen : Text → Text → Prop}

/-- The relation holds of what a handler works with. -/
def Thread.Token (seen : Text → Text → Prop) : Thread → Prop
  | .authenticate addr _ token => seen addr token
  | .asking _ _ client token => seen client.ip token
  | .answered _ _ client token _ => seen client.ip token
  | .loggingOut client => seen client.ip client.token

/-- The copies that the sync thread works with, the one it logs out included. -/
def Sync.held : Sync → List Client
  | .loggingOut client rest => client :: rest
  | s => s.pending

/-- The relation holds of every address and token of a state. -/
structure Tokens (seen : Text → Text → Prop) (s : State) : Prop where
  clients : ∀ c ∈ s.list.clients, seen c.ip c.token
  threads : ∀ th ∈ s.threads, th.Token seen
  sync : ∀ c ∈ s.sync.held, seen c.ip c.token
  asked : ∀ q ∈ s.asked, seen q.ip q.token

theorem Fresh.tokens {s : State} (h : Fresh s) : Tokens seen s where
  clients := by simp [h.list, clientListInit]
  threads := by simp [h.threads]
  sync := by simp [h.sync, Sync.held, Sync.pending]
  asked := by simp [h.asked]

theorem Tokens.mono {seen' : Text → Text → Prop} (hle : ∀ ip token, seen ip token → seen' ip token)
    {s : State} (h : Tokens seen s) : Tokens seen' s where
  clients c hc := hle _ _ (h.clients c hc)
  threads th hth := by
    have hold := h.threads th hth
    cases th <;> exact hle _ _ hold
  sync c hc := hle _ _ (h.sync c hc)
  asked q hq := hle _ _ (h.asked q hq)

@[simp] theorem Sync.held_next (w : List Client) : (Sync.next w).held = w := by
  cases w <;> rfl

/-- A record that a step adds comes from a login link. -/
theorem step_adds {cfg : Config} {s s' : State} {a : Action} (h : step cfg s a = some s')
    {ip mac token : Text} {now : Int64} (hnew : clientListFind s.list ip mac = none)
    (hlist : s'.list = clientListAdd s.list ip mac token now) :
    ∃ logout now, a = .httpCallbackAuth ip (some mac) (some token) logout now := by
  have hdoes := step_deed h
  have hhead : (⟨s.list.clientId, ip, mac, token, fwMarkNone, 0, .fresh now⟩ : Client) ∈
      ((deedOf cfg s a).list s.list).clients := by
    rw [← hdoes.list, hlist]
    exact List.mem_cons_self
  rcases Deed.addresses hdoes.valid hhead with ⟨token', now', hadd⟩ | ⟨c, hc, hip, hmac⟩
  · obtain ⟨logout, ha⟩ := deedOf_add hadd
    have hlists := hdoes.list
    rw [hlist, hadd] at hlists
    have heq := (List.cons.inj (congrArg ClientList.clients hlists)).1
    have htoken : token = token' := congrArg Client.token heq
    exact ⟨logout, now', by rw [ha, htoken]⟩
  · exact absurd ⟨c, hc, hip.symm, hmac.symm⟩ (clientListFind_eq_none_iff.mp hnew)

/-- The tokens of the records after a step. -/
theorem step_tokens_clients {cfg : Config} {s s' : State} {a : Action}
    (h : step cfg s a = some s') (hcopies : Copies s) (hs : Tokens seen s)
    (hlink : ∀ ip mac token logout now,
      a = .httpCallbackAuth ip (some mac) (some token) logout now → seen ip token) :
    ∀ c ∈ s'.list.clients, seen c.ip c.token := by
  have hwrite : ∀ {c d e : Client}, c ∈ s.list.clients → d.ip = c.ip →
      (d.token = c.token ∨ retokensAt s a c d.token) → e.ip = d.ip → e.token = d.token →
      ∀ f ∈ (clientListWrite s.list e).clients, seen f.ip f.token := by
    intro c d e hc hip htok heip hetok f hf
    rcases mem_clientListWrite hf with rfl | ⟨hf, _⟩
    · rw [heip, hetok, hip]
      rcases htok with htok | ⟨i, addr, mac, client, code, _, hth, hfind⟩
      · rw [htok]
        exact hs.clients c hc
      · have hthread := List.mem_of_getElem? hth
        rw [((hcopies.threads _ hthread client rfl).find_eq hfind).1]
        exact hs.threads _ hthread
    · exact hs.clients f hf
  have heff := step_effect h
  generalize hl : s'.list = l' at heff
  generalize s'.tables = t' at heff
  cases heff with
  | same => exact hs.clients
  | add hnew token now =>
    intro c hc
    rcases List.mem_cons.mp hc with rfl | hc
    · obtain ⟨logout, now', rfl⟩ := step_adds h hnew hl
      exact hlink _ _ _ _ _ rfl
    · exact hs.clients c hc
  | write hc hd htok => exact hwrite hc hd.ip htok rfl rfl
  | allow hc hd htok hacts hmark => exact hwrite hc hd.ip htok rfl rfl
  | deny hc hd htok => exact hwrite hc hd.ip htok rfl rfl
  | remove hc => exact fun c hc => hs.clients c (mem_clientListRemove hc)
  | prevent print ip hp => exact hs.clients

theorem logoutHandler_tokens (cfg : Config) {s : State} (hs : Tokens seen s) {c : Client}
    (hc : c ∈ s.list.clients) : ∀ th ∈ (s.logoutHandler cfg c).threads, th.Token seen := by
  intro th hth
  simp only [State.logoutHandler] at hth
  split at hth
  · rcases List.mem_append.mp hth with hth | hth
    · exact hs.threads th hth
    · rw [List.mem_singleton.mp hth]
      exact hs.clients c hc
  · exact hs.threads th hth

theorem httpCallbackAuth_tokens (cfg : Config) {s : State} (hs : Tokens seen s) {addr : Text}
    {arp token : Option Text} (hlink : ∀ mac ∈ arp, ∀ t ∈ token, seen addr t) (logout : Bool)
    (now : Int64) :
    ∀ th ∈ (httpCallbackAuth cfg s addr arp token logout now).threads, th.Token seen := by
  intro th hth
  unfold httpCallbackAuth at hth
  split at hth
  · next token mac =>
    have hnew : ∀ th ∈ s.threads ++ [Thread.authenticate addr mac token], th.Token seen := by
      intro th hth
      rcases List.mem_append.mp hth with hth | hth
      · exact hs.threads th hth
      · rw [List.mem_singleton.mp hth]
        exact hlink mac rfl token rfl
    cases hf : clientListFind s.list addr mac with
    | none =>
      rw [hf] at hth
      cases logout with
      | true => exact hs.threads th hth
      | false => exact hnew th hth
    | some client =>
      rw [hf] at hth
      cases logout with
      | true => exact logoutHandler_tokens cfg hs (mem_of_find hf).1 th hth
      | false => exact hnew th hth
  · exact hs.threads th hth

theorem httpCallbackDisconnect_tokens (cfg : Config) {s : State} (hs : Tokens seen s)
    (mac token : Option Text) (user pass : Text) :
    ∀ th ∈ (httpCallbackDisconnect cfg s mac token user pass).threads, th.Token seen := by
  unfold httpCallbackDisconnect
  split
  · exact hs.threads
  · split
    · split
      · exact hs.threads
      · next client hf =>
        split
        · exact hs.threads
        · exact logoutHandler_tokens cfg hs (mem_of_findByMac hf).1
    · exact hs.threads

theorem wdctlReset_tokens (cfg : Config) {s : State} (hs : Tokens seen s) (arg : Text) :
    ∀ th ∈ (wdctlReset cfg s arg).threads, th.Token seen := by
  unfold wdctlReset
  split
  · exact hs.threads
  · next node hf =>
    refine logoutHandler_tokens cfg hs ?_
    cases hip : clientListFindByIp s.list arg with
    | none =>
      rw [hip] at hf
      exact (mem_of_findByMac hf).1
    | some d =>
      rw [hip] at hf
      obtain rfl := Option.some.inj hf
      exact (mem_of_findByIp hip).1

/-- The relation holds after a step, if a login link brings a token that it holds of. -/
theorem step_tokens {cfg : Config} {s s' : State} {a : Action}
    (h : step cfg s a = some s') (hcopies : Copies s) (hs : Tokens seen s)
    (hlink : ∀ ip mac token logout now,
      a = .httpCallbackAuth ip (some mac) (some token) logout now → seen ip token) :
    Tokens seen s' := by
  have hclients := step_tokens_clients h hcopies hs hlink
  cases a with
  | httpCallbackAuth addr arp token logout now =>
    obtain rfl := Option.some.inj h
    obtain ⟨hsync, hasked⟩ := httpCallbackAuth_sync cfg s addr arp token logout now
    refine ⟨hclients, httpCallbackAuth_tokens cfg hs (fun mac hmac t ht => ?_) logout now, ?_, ?_⟩
    · rw [Option.mem_def] at hmac ht
      subst hmac ht
      exact hlink addr mac t logout now rfl
    · rw [hsync]; exact hs.sync
    · rw [hasked]; exact hs.asked
  | httpCallbackDisconnect mac token user pass =>
    obtain rfl := Option.some.inj h
    obtain ⟨hsync, hasked⟩ := httpCallbackDisconnect_sync cfg s mac token user pass
    refine ⟨hclients, httpCallbackDisconnect_tokens cfg hs mac token user pass, ?_, ?_⟩
    · rw [hsync]; exact hs.sync
    · rw [hasked]; exact hs.asked
  | wdctlReset arg =>
    obtain rfl := Option.some.inj h
    obtain ⟨hsync, hasked⟩ := wdctlReset_sync cfg s arg
    refine ⟨hclients, wdctlReset_tokens cfg hs arg, ?_, ?_⟩
    · rw [hsync]; exact hs.sync
    · rw [hasked]; exact hs.asked
  | authenticateLookup i =>
    obtain ⟨addr, mac, token, hth, ⟨_, rfl⟩ | ⟨client, hf, rfl⟩⟩ := authenticateLookup_cases h
    · exact ⟨hclients, fun th hmem => hs.threads th (List.mem_of_mem_eraseIdx hmem), hs.sync,
        hs.asked⟩
    · refine ⟨hclients, fun th hmem => ?_, hs.sync, hs.asked⟩
      rcases List.mem_or_eq_of_mem_set hmem with hmem | rfl
      · exact hs.threads th hmem
      · have hold : seen addr token := hs.threads _ (List.mem_of_getElem? hth)
        rw [← (mem_of_findByIp hf).2] at hold
        exact hold
  | authenticateAnswer i code =>
    obtain ⟨addr, mac, client, token, hth, rfl⟩ := authenticateAnswer_cases h
    have hold : seen client.ip token := hs.threads _ (List.mem_of_getElem? hth)
    refine ⟨hclients, fun th hmem => ?_, hs.sync, fun q hq => ?_⟩
    · rcases List.mem_or_eq_of_mem_set hmem with hmem | rfl
      · exact hs.threads th hmem
      · exact hold
    · rcases List.mem_cons.mp hq with rfl | hq
      · exact hold
      · exact hs.asked q hq
  | authenticateApply i =>
    obtain ⟨_, _, _, _, _, _, ⟨_, rfl⟩ | ⟨_, _, rfl⟩⟩ := authenticateApply_cases h <;>
      exact ⟨hclients, fun th hmem => hs.threads th (List.mem_of_mem_eraseIdx hmem), hs.sync,
        hs.asked⟩
  | logoutAnswer i code =>
    obtain ⟨client, hth, rfl⟩ := logoutAnswer_cases h
    refine ⟨hclients, fun th hmem => hs.threads th (List.mem_of_mem_eraseIdx hmem), hs.sync,
      fun q hq => ?_⟩
    rcases List.mem_cons.mp hq with rfl | hq
    · exact hs.threads _ (List.mem_of_getElem? hth)
    · exact hs.asked q hq
  | syncStart =>
    obtain ⟨_, rfl⟩ := syncStart_cases h
    exact ⟨hclients, hs.threads, by simp [Sync.held, Sync.pending], hs.asked⟩
  | countersRow print dir ip counter now =>
    obtain ⟨_, rfl⟩ := countersRow_cases h
    exact ⟨hclients, hs.threads, hs.sync, hs.asked⟩
  | syncAbort =>
    obtain ⟨_, rfl⟩ := syncAbort_cases h
    exact ⟨hclients, hs.threads, by simp [Sync.held, Sync.pending], hs.asked⟩
  | syncDup =>
    obtain ⟨_, rfl⟩ := syncDup_cases h
    refine ⟨hclients, hs.threads, fun c hc => ?_, hs.asked⟩
    rw [Sync.held_next] at hc
    obtain ⟨d, hd, rfl⟩ := List.mem_map.mp hc
    exact hs.clients d hd
  | syncAnswer code =>
    obtain ⟨p1, rest, hwas, rfl⟩ := syncAnswer_cases h
    have hheld : ∀ c ∈ p1 :: rest, seen c.ip c.token := by
      have hsync := hs.sync
      rw [hwas] at hsync
      exact hsync
    refine ⟨hclients, hs.threads, hheld, fun q hq => ?_⟩
    dsimp only at hq
    split at hq
    · rcases List.mem_cons.mp hq with rfl | hq
      · exact hheld p1 List.mem_cons_self
      · exact hs.asked q hq
    · exact hs.asked q hq
  | syncApply now =>
    obtain ⟨p1, rest, code, hwas, hcase⟩ := syncApply_cases h
    have hrest : ∀ c ∈ rest, seen c.ip c.token := by
      have hsync := hs.sync
      rw [hwas] at hsync
      exact fun c hc => hsync c (List.mem_cons_of_mem p1 hc)
    have hnext : ∀ c ∈ (Sync.next rest).held, seen c.ip c.token := by
      rw [Sync.held_next]
      exact hrest
    obtain ⟨_, rfl⟩ | ⟨tmp, hf, ⟨_, rfl⟩ | ⟨_, _, rfl⟩ | ⟨_, _, rfl⟩⟩ := hcase
    · exact ⟨hclients, hs.threads, hnext, hs.asked⟩
    · refine ⟨hclients, hs.threads, fun c hc => ?_, hs.asked⟩
      dsimp only at hc
      split at hc
      · rcases List.mem_cons.mp hc with rfl | hc
        · exact hs.clients tmp (mem_of_findByClient hf).1
        · exact hrest c hc
      · exact hnext c hc
    · exact ⟨hclients, hs.threads, hnext, hs.asked⟩
    · exact ⟨hclients, hs.threads, hnext, hs.asked⟩
  | syncLogoutAnswer code =>
    obtain ⟨client, rest, hwas, rfl⟩ := syncLogoutAnswer_cases h
    have hheld : ∀ c ∈ client :: rest, seen c.ip c.token := by
      have hsync := hs.sync
      rw [hwas] at hsync
      exact hsync
    refine ⟨hclients, hs.threads, fun c hc => ?_, fun q hq => ?_⟩
    · rw [Sync.held_next] at hc
      exact hheld c (List.mem_cons_of_mem client hc)
    · rcases List.mem_cons.mp hq with rfl | hq
      · exact hheld client List.mem_cons_self
      · exact hs.asked q hq

end Tokens

/-! ## Runs of the gateway -/

/-- One of the connections brought a request for the login page from this address, with this
    token. -/
def Linked (ws : List WebAction) (ip token : Text) : Prop :=
  ∃ arp now junk reads r, WebAction.connection ip arp now junk reads ∈ ws ∧
    httpdReadRequest junk reads = .request r ∧
    (r.path = "/wifidog/auth".toList ∨ r.path = "wifidog/auth".toList) ∧
    httpdGetVariableByName r.vars "token".toList = some token

theorem Linked.append {ws ws' : List WebAction} {ip token : Text} :
    Linked ws ip token ∨ Linked ws' ip token → Linked (ws ++ ws') ip token := by
  rintro (⟨arp, now, junk, reads, r, hmem, h⟩ | ⟨arp, now, junk, reads, r, hmem, h⟩)
  · exact ⟨arp, now, junk, reads, r, List.mem_append_left _ hmem, h⟩
  · exact ⟨arp, now, junk, reads, r, List.mem_append_right _ hmem, h⟩

theorem path_of_auth {path : Text} (h : pageOf path = .call .auth) :
    path = "/wifidog/auth".toList ∨ path = "wifidog/auth".toList := by
  unfold pageOf at h
  split at h
  · cases hlookup : gatewayPages.lookup path with
    | none => rw [hlookup] at h; cases h
    | some f =>
      rw [hlookup] at h
      obtain rfl : f = .auth := Served.call.inj h
      obtain ⟨l₁, l₂, hpages, _⟩ := List.lookup_eq_some_iff.mp hlookup
      have hmem : (path, Callback.auth) ∈ gatewayPages := by
        rw [hpages]
        simp
      have hall : ∀ page ∈ gatewayPages, page.2 = .auth →
          page.1 = "/wifidog/auth".toList ∨ page.1 = "wifidog/auth".toList := by decide
      exact hall _ hmem rfl
  · cases h

/-- What a connection or a step of a thread does: nothing, or a step of the system, and then a
    login that it starts came by a link. -/
theorem webStep_cases {cfg : Config} {s s' : State} {w : WebAction}
    (h : webStep cfg s w = some s') :
    s' = s ∨ ∃ a, step cfg s a = some s' ∧
      ∀ ip mac token logout now,
        a = .httpCallbackAuth ip (some mac) (some token) logout now → Linked [w] ip token := by
  cases w with
  | other a =>
    simp only [webStep] at h
    split at h
    · cases h
    · next hweb =>
      refine Or.inr ⟨a, h, ?_⟩
      rintro ip mac token logout now rfl
      exact absurd rfl hweb
  | connection addr arp now junk reads =>
    simp only [webStep] at h
    split at h
    · cases h
    · exact Or.inl (Option.some.inj h).symm
    · next r served hthread =>
      obtain ⟨hread, rfl⟩ := threadHttpd_cases hthread
      split at h
      · exact Or.inl (Option.some.inj h).symm
      · next a haction =>
        refine Or.inr ⟨a, h, ?_⟩
        rintro ip mac token logout now' rfl
        unfold requestAction at haction
        split at haction
        · next hauth =>
          obtain ⟨rfl, _, htoken, _⟩ := Action.httpCallbackAuth.inj (Option.some.inj haction)
          exact ⟨arp, now, junk, reads, r, List.mem_singleton_self _, hread, path_of_auth hauth,
            htoken⟩
        · cases haction
        · cases haction

theorem web_run_tokens {cfg : Config} {s s' : State} {ws : List WebAction}
    (hrun : run (webStep cfg) s ws = some s') (hcopies : Copies s) (before : List WebAction)
    (hs : Tokens (Linked before) s) : Tokens (Linked (before ++ ws)) s' := by
  induction ws generalizing s before with
  | nil =>
    obtain rfl : s = s' := by simpa using hrun
    rwa [List.append_nil]
  | cons w ws ih =>
    obtain ⟨t, hstep, hrest⟩ := run_cons_iff.mp hrun
    rw [List.append_cons]
    have hmono : Tokens (Linked (before ++ [w])) s := hs.mono fun _ _ h => .append (Or.inl h)
    rcases webStep_cases hstep with rfl | ⟨a, ha, hlink⟩
    · exact ih hrest hcopies _ hmono
    · refine ih hrest (step_copies ha hcopies) _ (step_tokens ha hcopies hmono ?_)
      intro ip mac token logout now heq
      exact .append (Or.inr (hlink ip mac token logout now heq))

/-- In whatever order the threads take their lock sections, if no request overruns its buffers and
    no two lookups of pages overlap: every token that a client is listed with, and every token
    that an auth server was asked about, came from the same address in a request for the login
    page. -/
theorem tokens_from_links (cfg : Config) {s0 s : State} {ws : List WebAction} (h0 : Fresh s0)
    (hrun : run (webStep cfg) s0 ws = some s) :
    (∀ c ∈ s.list.clients, Linked ws c.ip c.token) ∧ ∀ q ∈ s.asked, Linked ws q.ip q.token := by
  have h := web_run_tokens hrun h0.copies [] h0.tokens
  exact ⟨h.clients, h.asked⟩

/-- A login link that is followed at the small gateway. -/
def smallVisit : WebAction :=
  .connection smallIp (some smallMac) 0 "stale".toList loginReads

/-- The link is followed and the auth server is asked about its token. -/
def askedVisit : List WebAction :=
  [smallVisit, .other (.authenticateLookup 0), .other (.authenticateAnswer 0 authAllowed)]

theorem tokens_from_links_visit :
    ∃ s, run (webStep smallConfig) smallStart askedVisit = some s ∧
      (∃ c ∈ s.list.clients, Linked askedVisit c.ip c.token) ∧
      ∃ q ∈ s.asked, Linked askedVisit q.ip q.token := by
  have hlen : (run (webStep smallConfig) smallStart askedVisit).map
      (fun s => (s.list.clients.length, s.asked.length)) = some (1, 1) := by
    decide +kernel
  obtain ⟨s, hs, hone⟩ := Option.map_eq_some_iff.mp hlen
  obtain ⟨hclients, hasked⟩ := Prod.mk.inj hone
  obtain ⟨c, hc⟩ := List.length_eq_one_iff.mp hclients
  obtain ⟨q, hq⟩ := List.length_eq_one_iff.mp hasked
  have hcmem : c ∈ s.list.clients := by rw [hc]; exact List.mem_cons_self
  have hqmem : q ∈ s.asked := by rw [hq]; exact List.mem_cons_self
  have hlinked := tokens_from_links smallConfig smallStart_fresh hs
  exact ⟨s, hs, ⟨c, hcmem, hlinked.1 c hcmem⟩, q, hqmem, hlinked.2 q hqmem⟩

/-! ## A link that is followed -/

/-- A client that had no record has logged in and been given a mark: a record, an id, a request
    and one rule in each of the clients' chains, and nothing else. -/
structure Opened (addr mac token : Text) (now : Int64) (code mark : Int) (s s' : State) :
    Prop where
  asked : s'.asked = ⟨.login, addr, mac, token, code⟩ :: s.asked
  listed : s'.list.clients =
    ⟨s.list.clientId, addr, mac, token, mark, 0, .fresh now⟩ :: s.list.clients
  nextId : s'.list.clientId = s.list.clientId + 1
  outgoing : s'.rules .outgoing = s.rules .outgoing ++ [markRule addr mac mark]
  incoming : s'.rules .incoming = s.rules .incoming ++ [acceptRule addr]
  /-- the other chains and tables -/
  others : ∀ tb ch, Foreign tb ch → s'.tables.view tb ch = s.tables.view tb ch
  threads : s'.threads = s.threads
  sync : s'.sync = s.sync

theorem authenticateSwitch_grant {code mark : Int} (h : grantMark code = some mark)
    (t : Tables Chain) (c : Client) :
    authenticateSwitch t c code = ((fwAllow t c mark).1, { c with fwConnectionState := mark }) := by
  unfold grantMark at h
  unfold authenticateSwitch
  split at h
  · next hvalid =>
    obtain rfl := Option.some.inj h
    rw [hvalid, if_neg (by decide), if_pos rfl]
    rfl
  · next hvalid =>
    split at h
    · next hallowed =>
      obtain rfl := Option.some.inj h
      rw [hallowed, if_neg (by decide), if_neg (by decide), if_pos rfl]
      rfl
    · cases h

/-- The steps of one login, from the callback to the switch. -/
theorem login_opens (cfg : Config) {s : State} (hwf : s.list.Wf) (hchains : HasChains s.tables)
    {addr mac : Text} (hfree : ∀ c ∈ s.list.clients, c.ip ≠ addr) (token : Text) (now : Int64)
    {code mark : Int} (hmark : grantMark code = some mark) :
    ∃ s', run (step cfg) s
        [.httpCallbackAuth addr (some mac) (some token) false now,
          .authenticateLookup s.threads.length, .authenticateAnswer s.threads.length code,
          .authenticateApply s.threads.length] = some s' ∧
      Opened addr mac token now code mark s s' := by
  let c : Client := ⟨s.list.clientId, addr, mac, token, fwMarkNone, 0, .fresh now⟩
  let l : ClientList := clientListAdd s.list addr mac token now
  have hnew : clientListFind s.list addr mac = none :=
    clientListFind_eq_none_iff.mpr fun ⟨d, hd, hip, _⟩ => hfree d hd hip
  have hauth : step cfg s (.httpCallbackAuth addr (some mac) (some token) false now) =
      some { s with list := l, threads := s.threads ++ [.authenticate addr mac token] } := by
    simp [step, httpCallbackAuth, hnew, l]
  have hlookup : step cfg { s with list := l, threads := s.threads ++ [.authenticate addr mac token] }
      (.authenticateLookup s.threads.length) =
      some { s with list := l, threads := s.threads ++ [.asking addr mac (clientDup c) token] } := by
    have hfind : clientListFindByIp l addr = some c := by
      simp [clientListFindByIp, l, clientListAdd, clientListInsertClient, c]
    simp [step, authenticateLookup, hfind]
  have hanswer : step cfg { s with list := l, threads := s.threads ++ [.asking addr mac (clientDup c) token] }
      (.authenticateAnswer s.threads.length code) =
      some { s with
        list := l
        threads := s.threads ++ [.answered addr mac (clientDup c) token code]
        asked := ⟨.login, addr, mac, token, code⟩ :: s.asked } := by
    simp [step, authenticateAnswer, clientDup, c]
  have happly : step cfg { s with
        list := l
        threads := s.threads ++ [.answered addr mac (clientDup c) token code]
        asked := ⟨.login, addr, mac, token, code⟩ :: s.asked }
      (.authenticateApply s.threads.length) =
      some { s with
        list := clientListWrite l { c with fwConnectionState := mark }
        tables := (fwAllow s.tables c mark).1
        asked := ⟨.login, addr, mac, token, code⟩ :: s.asked } := by
    have hfind : clientListFindByClient l (clientDup c) = some c := by
      simp [clientListFindByClient, l, clientListAdd, clientListInsertClient, c, clientDup]
    have herase : ∀ th : Thread, (s.threads ++ [th]).eraseIdx s.threads.length = s.threads := by
      intro th
      rw [List.eraseIdx_append_of_length_le (Nat.le_refl _)]
      simp
    simp [step, authenticateApply, hfind, herase, authenticateSwitch_grant hmark, c]
  refine ⟨_, run_cons_iff.mpr ⟨_, hauth, run_cons_iff.mpr ⟨_, hlookup, run_cons_iff.mpr
    ⟨_, hanswer, run_cons_iff.mpr ⟨_, happly, rfl⟩⟩⟩⟩, rfl, ?_, rfl, ?_, ?_,
    fun tb ch hf => view_fwAllow_other _ _ _ hf, rfl, rfl⟩
  · -- the other records have smaller ids
    have hkept : s.list.clients.map (fun d =>
        if d.id = s.list.clientId then { c with fwConnectionState := mark } else d) =
          s.list.clients := by
      refine (List.map_congr_left fun d hd => ?_).trans (List.map_id _)
      exact if_neg (Nat.ne_of_lt (hwf.bound d hd))
    simp only [clientListWrite, l, clientListAdd, clientListInsertClient, List.map_cons, if_true, c]
    exact congrArg _ hkept
  · refine rules_map (f := allowOutgoing c mark) ?_ hchains.1
    exact view_fwAllow_outgoing s.tables c mark
  · refine rules_map (f := allowIncoming c) ?_ hchains.2
    exact view_fwAllow_incoming s.tables c mark

/-- What every step of the system keeps, every connection keeps. -/
theorem web_run_inv {cfg : Config} (Inv : State → Prop)
    (hinv : ∀ s a s', Inv s → step cfg s a = some s' → Inv s') {s s' : State}
    {ws : List WebAction} (hs : Inv s) (hrun : run (webStep cfg) s ws = some s') : Inv s' := by
  refine run_inv Inv (fun s w s' hs h => ?_) hs hrun
  rcases webStep_cases h with rfl | ⟨a, ha, _⟩
  · exact hs
  · exact hinv s a s' hs ha

theorem received_path (s : Sent) : s.received.path = s.path := by
  have hfold : ∀ (headers : List HeaderLine) (r : HttpReq),
      (headers.foldl HeaderLine.apply r).path = r.path := by
    intro headers
    induction headers with
    | nil => exact fun r => rfl
    | cons h headers ih =>
      intro r
      rw [List.foldl_cons, ih]
      cases h <;> rfl
  exact hfold _ _

/-- A login link that a browser follows from an address without a record, in any number of packets
    and whatever the buffer held: its token goes to the auth server, and if nothing comes between
    the steps of the login, an answer that grants access leaves a record and the two rules of the
    client, and everything else as it was. -/
theorem link_opens (cfg : Config) {s0 s : State} {ws : List WebAction} (h0 : Fresh s0)
    (hrun : run (webStep cfg) s0 ws = some s) {sent : Sent} (hsent : sent.Wf)
    (hpath : sent.path = "/wifidog/auth".toList) (hfits : ∀ h ∈ sent.headers, h.Fits)
    {token : Text}
    (htoken : (sent.pairs.find? fun pair => pair.1 == "token".toList).map Prod.snd = some token)
    (hlogout : (sent.pairs.find? fun pair => pair.1 == "logout".toList) = none)
    {reads : List HttpChunk} {rest : Text} (harrived : arrived reads = sent.text ++ rest)
    (junk : Text) {addr mac : Text} (hfree : ∀ c ∈ s.list.clients, c.ip ≠ addr) (now : Int64)
    {code mark : Int} (hmark : grantMark code = some mark) :
    ∃ s', run (webStep cfg) s
        [.connection addr (some mac) now junk reads,
          .other (.authenticateLookup s.threads.length),
          .other (.authenticateAnswer s.threads.length code),
          .other (.authenticateApply s.threads.length)] = some s' ∧
      Opened addr mac (token.map plusToBlank) now code mark s s' := by
  have hwf : s.list.Wf :=
    web_run_inv (fun s => s.list.Wf) (fun _ _ _ hs h => (step_effect h).wf hs) h0.wf hrun
  have hchains : HasChains s.tables :=
    web_run_inv (fun s => HasChains s.tables) (fun _ _ _ hs h => (step_effect h).hasChains hs)
      ⟨by simp [h0.outgoing], by simp [h0.incoming]⟩ hrun
  have hvar : httpdGetVariableByName sent.received.vars "token".toList =
      some (token.map plusToBlank) := by
    rw [received_variable hsent]
    obtain ⟨pair, hpair, rfl⟩ := Option.map_eq_some_iff.mp htoken
    rw [hpair]
    rfl
  have hnologout : httpdGetVariableByName sent.received.vars "logout".toList = none := by
    rw [received_variable hsent, hlogout]
    rfl
  have hthread : threadHttpd junk reads = some (some (sent.received, .call .auth)) := by
    have hread := (httpdReadRequest_sent hsent harrived junk).trans (if_pos hfits)
    rw [threadHttpd, hread]
    simp only [received_path, hpath]
    rfl
  have hconnection : webStep cfg s (.connection addr (some mac) now junk reads) =
      step cfg s (.httpCallbackAuth addr (some mac) (some (token.map plusToBlank)) false now) := by
    simp only [webStep, hthread, requestAction, hvar, hnologout, Option.isSome_none]
  obtain ⟨s', hlogin, hopened⟩ := login_opens cfg hwf hchains hfree (token.map plusToBlank) now hmark
  refine ⟨s', ?_, hopened⟩
  rw [← hlogin]
  simp only [run, hconnection]
  rfl

theorem link_opens_visit :
    ∃ s, run (webStep smallConfig) smallStart
        [smallVisit, .other (.authenticateLookup 0), .other (.authenticateAnswer 0 authAllowed),
          .other (.authenticateApply 0)] = some s ∧
      Opened smallIp smallMac "a&b/../c".toList 0 authAllowed fwMarkKnown smallStart s :=
  link_opens smallConfig smallStart_fresh (run_nil smallStart) loginSent_wf rfl (by decide) rfl
    (by decide) arrived_loginReads "stale".toList (by simp [smallStart, clientListInit]) 0
    (by decide)

end Wifidog
