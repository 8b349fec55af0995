/-
  Pages that are looked up while other pages are.

  The worker threads share the pointer of `strtok`, so the names that lead a lookup through the
  directories may come out of another request's path: `/wifidog/x/auth` can be answered by the
  login page (`overlapping_links_astray`). What a lookup keeps to itself is the name of the page
  and the variables of its request. So whatever the threads do between each other's calls, a
  token comes from the address that it is held for, in a request whose path ends in `/auth`
  (`overlapping_links`).

  Where every call that goes on with a walk finds the pointer in its own path, nothing is lost:
  the system then comes to the states that it comes to when a page is looked up in one step, and
  to no others (`lookup_in_one_step_iff`).
-/
import Wifidog.Model.Lookups
import Wifidog.Server.Links

namespace Wifidog

open CText Runs

/-! ## One step -/

section Call
variable (w : Workers) (i : Nat) (l : Lookup) (curItem : HttpDir Callback) (j : Nat) (s : Text)

@[simp] theorem Workers.call_state : (w.call i l curItem j s).state = w.state := rfl

theorem Workers.call_olds : (w.call i l curItem j s).olds =
    some (j, ((strtok '/' s).map Prod.snd).getD []) := rfl

theorem Workers.call_lookups : (w.call i l curItem j s).lookups =
    Function.update w.lookups i
      (some { l with walk := .go curItem ((strtok '/' s).map Prod.fst) }) := rfl

end Call

/-- What a step does. -/
inductive Worked (cfg : Config) (w : Workers) : WorkerAction → Workers → Prop
  /-- no request, or one without a slash -/
  | ignored {i : Nat} {addr junk : Text} {reads : List HttpChunk} (hfree : w.lookups i = none)
      (hread : httpdReadRequest junk reads = .invalid ∨
        ∃ r, httpdReadRequest junk reads = .request r ∧ splitPath r.path = none) :
      Worked cfg w (.connection i addr junk reads) w
  | begun {i : Nat} {addr junk : Text} {reads : List HttpChunk} {r : HttpReq}
      {dirName entryName : Text} (hfree : w.lookups i = none)
      (hread : httpdReadRequest junk reads = .request r)
      (hsplit : splitPath r.path = some (dirName, entryName)) :
      Worked cfg w (.connection i addr junk reads)
        (w.call i ⟨addr, r, entryName, .walking webserver.content⟩ webserver.content i
          (dirName.take (httpMaxUrl - 1)))
  | walked {i : Nat} {l : Lookup} {curItem : HttpDir Callback} {j : Nat} {s : Text}
      (hl : w.lookups i = some l) (hwalk : l.walk = .walking curItem) (holds : w.olds = some (j, s))
      (hj : w.walks j = true) : Worked cfg w (.next i) (w.call i l curItem j s)
  | served {i : Nat} {arp : Option Text} {now : Int64} {l : Lookup}
      {dir : Option (HttpDir Callback)} {s : State} (hl : w.lookups i = some l)
      (hwalk : l.walk = .found dir)
      (hstep : (match requestAction l.clientAddr arp now l.request
          (serveFound (fun _ => 0) webserver dir l.entryName) with
        | none => some w.state
        | some a => step cfg w.state a) = some s) :
      Worked cfg w (.serve i arp now) ⟨s, w.olds, Function.update w.lookups i none⟩
  | other {a : Action} {s : State} (hweb : a.ofWeb = false) (hstep : step cfg w.state a = some s) :
      Worked cfg w (.other a) { w with state := s }

theorem worked_of_workerStep {cfg : Config} {w w' : Workers} {a : WorkerAction}
    (h : workerStep cfg w a = some w') : Worked cfg w a w' := by
  cases a with
  | connection i addr junk reads =>
    simp only [workerStep] at h
    split at h
    · cases h
    · cases h
    · next hfree hread =>
      obtain rfl := Option.some.inj h
      exact .ignored hfree (Or.inl hread)
    · next r hfree hread =>
      split at h
      · next hsplit =>
        obtain rfl := Option.some.inj h
        exact .ignored hfree (Or.inr ⟨r, hread, hsplit⟩)
      · next dirName entryName hsplit =>
        obtain rfl := Option.some.inj h
        exact .begun hfree hread hsplit
  | next i =>
    simp only [workerStep] at h
    split at h
    · next l j s hl holds =>
      split at h
      · next curItem hwalk =>
        split at h
        · next hj =>
          obtain rfl := Option.some.inj h
          exact .walked hl hwalk holds hj
        · cases h
      · cases h
    · cases h
  | serve i arp now =>
    simp only [workerStep] at h
    split at h
    · cases h
    · next l hl =>
      split at h
      · cases h
      · next dir hwalk =>
        split at h
        · next hnone =>
          obtain rfl := Option.some.inj h
          exact .served hl hwalk (by rw [hnone])
        · next b haction =>
          obtain ⟨s, hs, rfl⟩ := Option.map_eq_some_iff.mp h
          exact .served hl hwalk (by rw [haction]; exact hs)
  | other b =>
    simp only [workerStep] at h
    split at h
    · cases h
    · next hweb =>
      obtain ⟨s, hs, rfl⟩ := Option.map_eq_some_iff.mp h
      exact .other (by simpa using hweb) hs

theorem Worked.workerStep_eq {cfg : Config} {w w' : Workers} {a : WorkerAction}
    (h : Worked cfg w a w') : workerStep cfg w a = some w' := by
  cases h with
  | ignored hfree hread =>
    rcases hread with hread | ⟨r, hread, hsplit⟩
    · simp [workerStep, hfree, hread]
    · simp [workerStep, hfree, hread, hsplit]
  | begun hfree hread hsplit => simp [workerStep, hfree, hread, hsplit]
  | walked hl hwalk holds hj => simp [workerStep, hl, hwalk, holds, hj]
  | @served i arp now l dir s hl hwalk hstep =>
    simp only [workerStep, hl, hwalk]
    cases haction : requestAction l.clientAddr arp now l.request
        (serveFound (fun _ => 0) webserver dir l.entryName) with
    | none =>
      simp only [haction] at hstep
      obtain rfl := Option.some.inj hstep
      rfl
    | some b =>
      simp only [haction] at hstep
      exact Option.map_eq_some_iff.mpr ⟨s, hstep, rfl⟩
  | other hweb hstep => simp [workerStep, hweb, hstep]

/-! ## Lookups -/

/-- A connection brought the request of a lookup, whose directory has this name. -/
structure Lookup.From (acts : List WorkerAction) (l : Lookup) (dirName : Text) : Prop where
  brought : ∃ i junk reads, WorkerAction.connection i l.clientAddr junk reads ∈ acts ∧
    httpdReadRequest junk reads = .request l.request
  split : splitPath l.request.path = some (dirName, l.entryName)

theorem Lookup.From.append {acts : List WorkerAction} {l : Lookup} {dirName : Text}
    (h : l.From acts dirName) (more : List WorkerAction) : l.From (acts ++ more) dirName := by
  obtain ⟨⟨i, junk, reads, hmem, hread⟩, hsplit⟩ := h
  exact ⟨⟨i, junk, reads, List.mem_append_left more hmem, hread⟩, hsplit⟩

section Each
-- what is known of a walk: of the pointer, the thread, the name of the directory and the walk
variable {Q : Option (Nat × Text) → Nat → Text → Walk Callback → Prop}

/-- It is known of each lookup. -/
def Workers.Each (Q : Option (Nat × Text) → Nat → Text → Walk Callback → Prop)
    (acts : List WorkerAction) (w : Workers) : Prop :=
  ∀ i l, w.lookups i = some l → ∃ dirName, l.From acts dirName ∧ Q w.olds i dirName l.walk

theorem Workers.Idle.each {w : Workers} (h : w.Idle) (acts : List WorkerAction) :
    w.Each Q acts := by
  intro i l hl
  rw [h i] at hl
  cases hl

theorem Workers.Each.append {w : Workers} {acts : List WorkerAction} (h : w.Each Q acts)
    (more : List WorkerAction) : w.Each Q (acts ++ more) := by
  intro i l hl
  obtain ⟨dirName, hfrom, hq⟩ := h i l hl
  exact ⟨dirName, hfrom.append more, hq⟩

/-- How a call of `strtok` keeps it: for the thread that calls, and for the others. -/
structure KeptByCall (Q : Option (Nat × Text) → Nat → Text → Walk Callback → Prop)
    (allowed : Nat → Nat → Prop) : Prop where
  first : ∀ i dirName,
    Q (some (i, dirName.take (httpMaxUrl - 1))) i dirName (.walking webserver.content)
  caller : ∀ i j dirName curItem s, allowed i j → Q (some (j, s)) i dirName (.walking curItem) →
    Q (some (j, ((strtok '/' s).map Prod.snd).getD [])) i dirName
      (.go curItem ((strtok '/' s).map Prod.fst))
  frame : ∀ olds i j k dirName walk s, allowed i j → k ≠ i → Q olds k dirName walk →
    Q (some (j, s)) k dirName walk

theorem Workers.Each.call {allowed : Nat → Nat → Prop} (hQ : KeptByCall Q allowed)
    {acts : List WorkerAction} {w : Workers} (h : w.Each Q acts) {i j : Nat} {l : Lookup}
    {curItem : HttpDir Callback} {s dirName : Text} (hij : allowed i j)
    (hfrom : l.From acts dirName) (hq : Q (some (j, s)) i dirName (.walking curItem)) :
    (w.call i l curItem j s).Each Q acts := by
  intro k m hm
  by_cases hk : k = i
  · subst hk
    rw [call_lookups, Function.update_self] at hm
    obtain rfl := Option.some.inj hm
    exact ⟨dirName, ⟨hfrom.brought, hfrom.split⟩, hQ.caller k j dirName curItem s hij hq⟩
  · rw [call_lookups, Function.update_of_ne hk] at hm
    obtain ⟨dirName', hfrom', hq'⟩ := h k m hm
    exact ⟨dirName', hfrom', hQ.frame _ i j k dirName' _ _ hij hk hq'⟩

/-- It is kept by every step whose calls are allowed. -/
theorem Workers.Each.step {allowed : Nat → Nat → Prop} (hQ : KeptByCall Q allowed)
    (hself : ∀ i, allowed i i) {cfg : Config} {acts : List WorkerAction} {w w' : Workers}
    {a : WorkerAction} (h : w.Each Q acts) (hstep : Worked cfg w a w')
    (hallowed : ∀ i j s, a = .next i → w.olds = some (j, s) → allowed i j) :
    w'.Each Q (acts ++ [a]) := by
  have hold := h.append [a]
  cases hstep with
  | ignored => exact hold
  | @begun i addr junk reads r dirName entryName hfree hread hsplit =>
    have hmem := List.mem_append_right acts
      (List.mem_singleton_self (WorkerAction.connection i addr junk reads))
    exact hold.call hQ (hself i) ⟨⟨i, junk, reads, hmem, hread⟩, hsplit⟩ (hQ.first i dirName)
  | walked hl hwalk holds hj =>
    obtain ⟨dirName, hfrom, hq⟩ := hold _ _ hl
    rw [hwalk, holds] at hq
    exact hold.call hQ (hallowed _ _ _ rfl holds) hfrom hq
  | @served i arp now l dir s hl hwalk hs =>
    intro k m hm
    by_cases hk : k = i
    · subst hk
      dsimp only at hm
      rw [Function.update_self] at hm
      cases hm
    · dsimp only at hm
      rw [Function.update_of_ne hk] at hm
      exact hold k m hm
  | other => exact hold

end Each

/-! ## Whatever overlaps -/

/-- The walk is in the tree of the gateway's pages. -/
def Walk.InTree : Walk Callback → Prop
  | .walking curItem => ∃ names, Trie.find? names webserver.content = some curItem
  | .found dir => ∀ d ∈ dir, ∃ names, Trie.find? names webserver.content = some d

theorem inTree_keptByCall :
    KeptByCall (fun _ _ _ walk => walk.InTree) fun _ _ => True where
  first _ _ := ⟨[], rfl⟩
  caller i j dirName curItem s _ hin := by
    obtain ⟨names, hnames⟩ := hin
    cases (strtok '/' s).map Prod.fst with
    | none =>
      intro d hd
      obtain rfl := Option.some.inj hd
      exact ⟨names, hnames⟩
    | some curDir =>
      simp only [Walk.go]
      split
      · intro d hd
        cases hd
      · next child hchild =>
        refine ⟨names ++ [curDir], ?_⟩
        rw [Trie.find?_concat, hnames]
        exact hchild
  frame _ _ _ _ _ _ _ _ _ h := h

/-- The login page has its own name, in whatever directory it is found. -/
theorem name_of_login {dir : Option (HttpDir Callback)} {entryName : Text}
    (hin : (Walk.found dir).InTree)
    (h : serveFound (fun _ => 0) webserver dir entryName = .call .auth) :
    entryName = "auth".toList := by
  cases dir with
  | none => cases h
  | some d =>
    obtain ⟨names, hnames⟩ := hin d rfl
    have hentries : d.entries = (namesIn names).map callbackEntry := by
      rw [← entriesAt_webserver, Trie.entriesAt, hnames]
    have hserve : serveFound (fun _ => 0) webserver (some d) entryName =
        serveFrom (fun _ => 0) webserver d.entries entryName := rfl
    rw [hserve, hentries, serveFrom_callbackEntry] at h
    cases hlookup : (namesIn names).lookup entryName with
    | none => rw [hlookup] at h; cases h
    | some f =>
      rw [hlookup] at h
      obtain rfl : f = .auth := Served.call.inj h
      obtain ⟨l₁, l₂, heq, _⟩ := List.lookup_eq_some_iff.mp hlookup
      have hmem : (entryName, Callback.auth) ∈ namesIn names := by
        rw [heq]
        simp
      have hall : ∀ pages ∈ [rootNames, wifidogNames, []], ∀ page ∈ pages, page.2 = Callback.auth →
          page.1 = "auth".toList := by decide
      refine hall (namesIn names) ?_ _ hmem rfl
      unfold namesIn
      split
      · simp
      · split <;> simp

/-- One of the connections brought a request from this address, with this token, whose path ends
    in the name of the login page. -/
def NamedLogin (acts : List WorkerAction) (ip token : Text) : Prop :=
  ∃ i junk reads r dirName, WorkerAction.connection i ip junk reads ∈ acts ∧
    httpdReadRequest junk reads = .request r ∧
    splitPath r.path = some (dirName, "auth".toList) ∧
    httpdGetVariableByName r.vars "token".toList = some token

theorem NamedLogin.append {acts : List WorkerAction} {ip token : Text}
    (h : NamedLogin acts ip token) (more : List WorkerAction) :
    NamedLogin (acts ++ more) ip token := by
  obtain ⟨i, junk, reads, r, dirName, hmem, h⟩ := h
  exact ⟨i, junk, reads, r, dirName, List.mem_append_left more hmem, h⟩

/-- A login that is begun when a page is served came by a request for it. -/
theorem login_named {acts : List WorkerAction} {l : Lookup} {dirName : Text}
    (hfrom : l.From acts dirName) {dir : Option (HttpDir Callback)}
    (hin : (Walk.found dir).InTree) {arp : Option Text} {now now' : Int64}
    {ip mac token : Text} {logout : Bool}
    (haction : requestAction l.clientAddr arp now l.request
      (serveFound (fun _ => 0) webserver dir l.entryName) =
        some (.httpCallbackAuth ip (some mac) (some token) logout now')) :
    NamedLogin acts ip token := by
  unfold requestAction at haction
  split at haction
  · next hauth =>
    obtain ⟨rfl, _, htoken, _⟩ := Action.httpCallbackAuth.inj (Option.some.inj haction)
    obtain ⟨⟨i, junk, reads, hmem, hread⟩, hsplit⟩ := hfrom
    rw [name_of_login hin hauth] at hsplit
    exact ⟨i, junk, reads, l.request, dirName, hmem, hread, hsplit, htoken⟩
  · cases haction
  · cases haction

/-- What holds of the system with its worker threads, whatever overlaps. -/
structure Workers.Kept (acts : List WorkerAction) (w : Workers) : Prop where
  copies : Copies w.state
  tokens : Tokens (NamedLogin acts) w.state
  lookups : w.Each (fun _ _ _ walk => walk.InTree) acts

theorem Workers.Kept.step {cfg : Config} {acts : List WorkerAction} {w w' : Workers}
    {a : WorkerAction} (h : w.Kept acts) (hstep : Worked cfg w a w') : w'.Kept (acts ++ [a]) := by
  have hlookups := h.lookups.step inTree_keptByCall (fun _ => trivial) hstep
    fun _ _ _ _ _ => trivial
  have htokens : Tokens (NamedLogin (acts ++ [a])) w.state :=
    h.tokens.mono fun _ _ h => h.append [a]
  cases hstep with
  | ignored => exact ⟨h.copies, htokens, hlookups⟩
  | begun => exact ⟨h.copies, htokens, hlookups⟩
  | walked => exact ⟨h.copies, htokens, hlookups⟩
  | @served i arp now l dir s hl hwalk hs =>
    obtain ⟨dirName, hfrom, hin⟩ := h.lookups i l hl
    rw [hwalk] at hin
    split at hs
    · obtain rfl := Option.some.inj hs
      exact ⟨h.copies, htokens, hlookups⟩
    · next b haction =>
      refine ⟨step_copies hs h.copies, step_tokens hs h.copies htokens ?_, hlookups⟩
      rintro ip mac token logout now' rfl
      exact login_named (hfrom.append _) hin haction
  | other hweb hs =>
    refine ⟨step_copies hs h.copies, step_tokens hs h.copies htokens ?_, hlookups⟩
    rintro ip mac token logout now' rfl
    cases hweb

theorem workers_run_kept {cfg : Config} {w w' : Workers} {acts : List WorkerAction}
    (hrun : run (workerStep cfg) w acts = some w') (before : List WorkerAction)
    (h : w.Kept before) : w'.Kept (before ++ acts) := by
  induction acts generalizing w before with
  | nil =>
    obtain rfl : w = w' := by simpa using hrun
    rwa [List.append_nil]
  | cons a acts ih =>
    obtain ⟨v, hstep, hrest⟩ := run_cons_iff.mp hrun
    rw [List.append_cons]
    exact ih hrest _ (h.step (worked_of_workerStep hstep))

/-- However the lookups of pages overlap and whoever's path the pointer of `strtok` is in: every
    token that a client is listed with, and every token that an auth server was asked about, came
    from the same address in a request whose path ends in the name of the login page. -/
theorem overlapping_links (cfg : Config) {w0 w : Workers} {acts : List WorkerAction}
    (h0 : Fresh w0.state) (hidle : w0.Idle) (hrun : run (workerStep cfg) w0 acts = some w) :
    (∀ c ∈ w.state.list.clients, NamedLogin acts c.ip c.token) ∧
      ∀ q ∈ w.state.asked, NamedLogin acts q.ip q.token := by
  have h := workers_run_kept hrun [] ⟨h0.copies, h0.tokens, hidle.each []⟩
  exact ⟨h.tokens.clients, h.tokens.asked⟩

/-- The small gateway, with no connection yet. -/
def smallWorkers : Workers := ⟨smallStart, none, fun _ => none⟩

theorem smallWorkers_idle : smallWorkers.Idle := fun _ => rfl

/-- A request for a page that the gateway does not have. -/
def strayedSent : Sent := ⟨.get, "/wifidog/x/auth".toList, [("token".toList, "t".toList)], []⟩

def besideSent : Sent := ⟨.get, "/wifidog/about".toList, [], []⟩

theorem strayedSent_chunk : strayedSent.text ≠ [] ∧ strayedSent.text.length ≤ httpReadBufLen := by
  decide +kernel

theorem besideSent_chunk : besideSent.text ≠ [] ∧ besideSent.text.length ≤ httpReadBufLen := by
  decide +kernel

def strayedReads : List HttpChunk := [⟨strayedSent.text, strayedSent_chunk⟩]

def besideReads : List HttpChunk := [⟨besideSent.text, besideSent_chunk⟩]

/-- Both requests have taken the name `wifidog` from their own paths when the first one goes on, in
    the path of the second one. -/
def strayedRun : List WorkerAction :=
  [.connection 0 smallIp [] strayedReads, .connection 1 "10.0.0.6".toList [] besideReads, .next 0,
    .serve 0 (some smallMac) 0, .other (.authenticateLookup 0),
    .other (.authenticateAnswer 0 authAllowed)]

/-- The first request is answered by the login page, where there is none for it. -/
theorem overlapping_links_astray :
    (threadHttpd [] strayedReads).map (Option.map Prod.snd) = some (some (.call .notFound)) ∧
      (threadHttpd [] besideReads).map (Option.map Prod.snd) = some (some (.call .about)) ∧
      ∃ w, run (workerStep smallConfig) smallWorkers strayedRun = some w ∧
        (∃ c ∈ w.state.list.clients, NamedLogin strayedRun c.ip c.token) ∧
        ∃ q ∈ w.state.asked, NamedLogin strayedRun q.ip q.token := by
  refine ⟨by decide +kernel, by decide +kernel, ?_⟩
  have hlen : (run (workerStep smallConfig) smallWorkers strayedRun).map
      (fun w => (w.state.list.clients.length, w.state.asked.length)) = some (1, 1) := by
    decide +kernel
  obtain ⟨w, hw, hone⟩ := Option.map_eq_some_iff.mp hlen
  obtain ⟨hclients, hasked⟩ := Prod.mk.inj hone
  obtain ⟨c, hc⟩ := List.length_eq_one_iff.mp hclients
  obtain ⟨q, hq⟩ := List.length_eq_one_iff.mp hasked
  have hcmem : c ∈ w.state.list.clients := by rw [hc]; exact List.mem_cons_self
  have hqmem : q ∈ w.state.asked := by rw [hq]; exact List.mem_cons_self
  have hnamed := overlapping_links smallConfig smallStart_fresh smallWorkers_idle hw
  exact ⟨w, hw, ⟨c, hcmem, hnamed.1 c hcmem⟩, q, hqmem, hnamed.2 q hqmem⟩

/-! ## Undisturbed lookups -/

/-- The walk is on its way to the directory of this name, by what is left of it, if the pointer is
    in the thread's own path. -/
def OnCourse (olds : Option (Nat × Text)) (i : Nat) (dirName : Text) : Walk Callback → Prop
  | .walking curItem => ∀ s, olds = some (i, s) →
      Trie.find? (tokens '/' s) curItem = Trie.find? (dirNames dirName) webserver.content
  | .found dir => dir = Trie.find? (dirNames dirName) webserver.content

/-- One call of `strtok` in a thread's own path. -/
theorem OnCourse.go {i : Nat} {s dirName : Text} {curItem : HttpDir Callback}
    (h : Trie.find? (tokens '/' s) curItem = Trie.find? (dirNames dirName) webserver.content) :
    OnCourse (some (i, ((strtok '/' s).map Prod.snd).getD [])) i dirName
      (.go curItem ((strtok '/' s).map Prod.fst)) := by
  rw [tokens_eq_strtok] at h
  cases hcall : strtok '/' s with
  | none =>
    rw [hcall] at h
    exact h
  | some p =>
    obtain ⟨curDir, rest⟩ := p
    rw [hcall] at h
    dsimp only [Trie.find?] at h
    simp only [Option.map_some, Option.getD_some, Walk.go]
    cases hchild : Trie.child? curDir curItem.children with
    | none =>
      rw [hchild] at h
      exact h
    | some child =>
      rw [hchild] at h
      intro s' hs'
      obtain rfl : rest = s' := (Prod.mk.inj (Option.some.inj hs')).2
      exact h

theorem onCourse_keptByCall : KeptByCall OnCourse fun i j => j = i where
  first i dirName s hs := by
    obtain rfl := (Prod.mk.inj (Option.some.inj hs)).2
    rfl
  caller i j dirName curItem s hij h := by
    subst hij
    exact OnCourse.go (h s rfl)
  frame olds i j k dirName walk s hij hk h := by
    cases walk with
    | found dir => exact h
    | walking curItem =>
      intro s' hs'
      exact absurd ((Prod.mk.inj (Option.some.inj hs')).1.symm.trans hij) hk

theorem httpdProcessRequest_found {φ : Type} (preload : φ → Int) (server : Httpd φ)
    {path dirName entryName : Text} (hsplit : splitPath path = some (dirName, entryName)) :
    httpdProcessRequest preload server path =
      serveFound preload server (Trie.find? (dirNames dirName) server.content) entryName := by
  rw [httpdProcessRequest, hsplit]
  rfl

theorem threadHttpd_request {junk : Text} {reads : List HttpChunk} {r : HttpReq}
    (h : httpdReadRequest junk reads = .request r) :
    threadHttpd junk reads =
      some (some (r, httpdProcessRequest (fun _ => 0) webserver r.path)) := by
  rw [threadHttpd, h]

/-- A step of the worker threads is a step of the system with lookups in one step, or none. -/
theorem worked_web {cfg : Config} {acts : List WorkerAction} {w w' : Workers} {a : WorkerAction}
    (h : w.Each OnCourse acts) (hstep : Worked cfg w a w') :
    ∃ ws, run (webStep cfg) w.state ws = some w'.state := by
  cases hstep with
  | ignored => exact ⟨[], rfl⟩
  | begun => exact ⟨[], rfl⟩
  | walked => exact ⟨[], rfl⟩
  | @served i arp now l dir s hl hwalk hs =>
    obtain ⟨dirName, ⟨⟨_, junk, reads, _, hread⟩, hsplit⟩, hcourse⟩ := h i l hl
    rw [hwalk] at hcourse
    obtain rfl := hcourse
    refine ⟨[.connection l.clientAddr arp now junk reads], run_cons_iff.mpr ⟨s, ?_, rfl⟩⟩
    simp only [webStep, threadHttpd_request hread, httpdProcessRequest_found _ _ hsplit]
    exact hs
  | @other a s hweb hs =>
    refine ⟨[.other a], run_cons_iff.mpr ⟨s, ?_, rfl⟩⟩
    simp [webStep, hweb, hs]

theorem workers_run_web {cfg : Config} {w w' : Workers} {acts : List WorkerAction}
    (hrun : run (workerStep cfg) w acts = some w')
    (halong : Along (workerStep cfg) Undisturbed w acts)
    (before : List WorkerAction) (h : w.Each OnCourse before) :
    ∃ ws, run (webStep cfg) w.state ws = some w'.state := by
  induction acts generalizing w before with
  | nil =>
    obtain rfl : w = w' := by simpa using hrun
    exact ⟨[], rfl⟩
  | cons a acts ih =>
    obtain ⟨v, hstep, hrest⟩ := run_cons_iff.mp hrun
    have hworked := worked_of_workerStep hstep
    have hown : ∀ i j s, a = .next i → w.olds = some (j, s) → j = i := by
      rintro i j s rfl holds
      have hi : w.olds.map Prod.fst = some i := halong.1
      rw [holds] at hi
      exact Option.some.inj hi
    have hnext := h.step onCourse_keptByCall (fun _ => rfl) hworked hown
    obtain ⟨ws, hws⟩ := worked_web h hworked
    obtain ⟨ws', hws'⟩ := ih hrest (halong.2 v hstep) _ hnext
    exact ⟨ws ++ ws', run_append_iff.mpr ⟨_, hws, hws'⟩⟩

/-- A walk that nothing disturbs comes to its end. -/
theorem walk_ends (cfg : Config) (w : Workers) (i : Nat) (l : Lookup) (curItem : HttpDir Callback)
    (s : Text) {names : List Text} (hnames : tokens '/' s = names) :
    ∃ acts w', run (workerStep cfg) (w.call i l curItem i s) acts = some w' ∧
      Along (workerStep cfg) Undisturbed (w.call i l curItem i s) acts ∧ w'.state = w.state ∧
      w'.lookups = Function.update w.lookups i
        (some { l with walk := .found (Trie.find? names curItem) }) := by
  rw [tokens_eq_strtok] at hnames
  induction names generalizing w l curItem s with
  | nil =>
    cases hcall : strtok '/' s with
    | some p => rw [hcall] at hnames; cases hnames
    | none =>
      refine ⟨[], _, rfl, trivial, rfl, ?_⟩
      rw [Workers.call_lookups, hcall]
      rfl
  | cons name names ih =>
    cases hcall : strtok '/' s with
    | none => rw [hcall] at hnames; cases hnames
    | some p =>
      obtain ⟨curDir, rest⟩ := p
      rw [hcall] at hnames
      obtain ⟨rfl, hrest⟩ := List.cons.inj hnames
      rw [tokens_eq_strtok] at hrest
      cases hchild : Trie.child? curDir curItem.children with
      | none =>
        refine ⟨[], _, rfl, trivial, rfl, ?_⟩
        simp only [Workers.call_lookups, hcall, Option.map_some, Walk.go, hchild, Trie.find?]
      | some child =>
        -- the next call finds the pointer behind the name that the last one has taken
        obtain ⟨acts, w', hrun, halong, hstate, hlookups⟩ :=
          ih (w.call i l curItem i s) { l with walk := .walking child } child rest hrest
        have hl : (w.call i l curItem i s).lookups i = some { l with walk := .walking child } := by
          simp only [Workers.call_lookups, hcall, Option.map_some, Walk.go, hchild,
            Function.update_self]
        have holds : (w.call i l curItem i s).olds = some (i, rest) := by
          rw [Workers.call_olds, hcall]
          rfl
        have hwalks : (w.call i l curItem i s).walks i = true := by
          rw [Workers.walks, hl]
        have hworked : Worked cfg (w.call i l curItem i s) (.next i) _ :=
          .walked hl rfl holds hwalks
        have hstep := hworked.workerStep_eq
        refine ⟨.next i :: acts, w', run_cons_iff.mpr ⟨_, hstep, hrun⟩, ⟨?_, ?_⟩, hstate, ?_⟩
        · rw [Undisturbed, holds]
          rfl
        · intro v hv
          rw [hstep] at hv
          obtain rfl := Option.some.inj hv
          exact halong
        · rw [hlookups, Workers.call_lookups, Function.update_idem, Trie.find?, hchild]

theorem Workers.Idle.update {w : Workers} (h : w.Idle) (i : Nat) :
    Function.update w.lookups i none = w.lookups := by
  rw [← h i, Function.update_eq_self]

/-- A connection is served by its thread from beginning to end. -/
theorem connection_served {cfg : Config} {w : Workers} (hidle : w.Idle) {addr junk : Text}
    {arp : Option Text} {now : Int64} {reads : List HttpChunk} {r : HttpReq}
    {dirName entryName : Text} (hread : httpdReadRequest junk reads = .request r)
    (hsplit : splitPath r.path = some (dirName, entryName)) {s : State}
    (h : (match requestAction addr arp now r (serveFound (fun _ => 0) webserver
        (Trie.find? (dirNames dirName) webserver.content) entryName) with
      | none => some w.state
      | some a => step cfg w.state a) = some s) :
    ∃ acts w', run (workerStep cfg) w acts = some w' ∧
      Along (workerStep cfg) Undisturbed w acts ∧ w'.Idle ∧ w'.state = s := by
  have hbegun : Worked cfg w (.connection 0 addr junk reads) _ := .begun (hidle 0) hread hsplit
  obtain ⟨acts, v, hrun, halong, hstate, hlookups⟩ := walk_ends cfg w 0
    ⟨addr, r, entryName, .walking webserver.content⟩ webserver.content
    (dirName.take (httpMaxUrl - 1)) rfl
  have hl : v.lookups 0 = some ⟨addr, r, entryName,
      .found (Trie.find? (dirNames dirName) webserver.content)⟩ := by
    rw [hlookups, Function.update_self]
    rfl
  rw [← hstate] at h
  have hserved : Worked cfg v (.serve 0 arp now) _ := .served hl rfl h
  have hfirst := hbegun.workerStep_eq
  have hlast := run_cons_iff.mpr ⟨_, hserved.workerStep_eq, run_nil _⟩
  refine ⟨.connection 0 addr junk reads :: (acts ++ [.serve 0 arp now]), _,
    run_cons_iff.mpr ⟨_, hfirst, run_append_iff.mpr ⟨v, hrun, hlast⟩⟩,
    ⟨trivial, fun u hu => ?_⟩, fun i => ?_, rfl⟩
  · rw [hfirst] at hu
    obtain rfl := Option.some.inj hu
    exact along_append_of hrun halong ⟨trivial, fun _ _ => trivial⟩
  · dsimp only
    rw [hlookups, Function.update_idem, hidle.update]
    exact hidle i

/-- A run of one step. -/
theorem worked_alone {cfg : Config} {w w' : Workers} {a : WorkerAction} (hw : Worked cfg w a w')
    (ha : Undisturbed w a) :
    run (workerStep cfg) w [a] = some w' ∧ Along (workerStep cfg) Undisturbed w [a] :=
  ⟨run_cons_iff.mpr ⟨w', hw.workerStep_eq, run_nil w'⟩, ha, fun _ _ => trivial⟩

/-- A step of the system with lookups in one step is a run of the worker threads in which nothing
    disturbs a lookup. -/
theorem web_worked {cfg : Config} {w : Workers} (hidle : w.Idle) {a : WebAction} {s : State}
    (h : webStep cfg w.state a = some s) :
    ∃ acts w', run (workerStep cfg) w acts = some w' ∧
      Along (workerStep cfg) Undisturbed w acts ∧ w'.Idle ∧ w'.state = s := by
  cases a with
  | other a =>
    simp only [webStep] at h
    split at h
    · cases h
    · next hweb =>
      have hworked : Worked cfg w (.other a) _ := .other (by simpa using hweb) h
      obtain ⟨hrun, halong⟩ := worked_alone hworked trivial
      exact ⟨[.other a], _, hrun, halong, hidle, rfl⟩
  | connection addr arp now junk reads =>
    have hignored : Worked cfg w (.connection 0 addr junk reads) w →
        ∃ acts w', run (workerStep cfg) w acts = some w' ∧
          Along (workerStep cfg) Undisturbed w acts ∧ w'.Idle ∧ w'.state = w.state := by
      intro hworked
      obtain ⟨hrun, halong⟩ := worked_alone hworked trivial
      exact ⟨_, w, hrun, halong, hidle, rfl⟩
    cases hread : httpdReadRequest junk reads with
    | outside => simp [webStep, threadHttpd, hread] at h
    | invalid =>
      simp only [webStep, threadHttpd, hread] at h
      obtain rfl := Option.some.inj h
      exact hignored (.ignored (hidle 0) (Or.inl hread))
    | request r =>
      simp only [webStep, threadHttpd_request hread] at h
      cases hsplit : splitPath r.path with
      | none =>
        rw [httpdProcessRequest, hsplit] at h
        obtain rfl := Option.some.inj h
        exact hignored (.ignored (hidle 0) (Or.inr ⟨r, hread, hsplit⟩))
      | some parts =>
        rw [httpdProcessRequest_found _ _ hsplit] at h
        exact connection_served hidle hread hsplit h

theorem web_run_workers {cfg : Config} {w : Workers} (hidle : w.Idle) {ws : List WebAction}
    {s : State} (h : run (webStep cfg) w.state ws = some s) :
    ∃ acts w', run (workerStep cfg) w acts = some w' ∧
      Along (workerStep cfg) Undisturbed w acts ∧ w'.state = s := by
  induction ws generalizing w with
  | nil =>
    obtain rfl : w.state = s := by simpa using h
    exact ⟨[], w, rfl, trivial, rfl⟩
  | cons a ws ih =>
    obtain ⟨t, hstep, hrest⟩ := run_cons_iff.mp h
    obtain ⟨acts, v, hrun, halong, hvidle, rfl⟩ := web_worked hidle hstep
    obtain ⟨acts', w', hrun', halong', hstate⟩ := ih hvidle hrest
    exact ⟨acts ++ acts', w', run_append_iff.mpr ⟨v, hrun, hrun'⟩,
      along_append_of hrun halong halong', hstate⟩

/-- The system with lookups in one step comes to a state exactly if its worker threads come there
    with every call that goes on with a walk finding the pointer in its own path. -/
theorem lookup_in_one_step_iff (cfg : Config) {w0 : Workers} (hidle : w0.Idle) (s : State) :
    (∃ ws, run (webStep cfg) w0.state ws = some s) ↔
      ∃ acts w, run (workerStep cfg) w0 acts = some w ∧
        Along (workerStep cfg) Undisturbed w0 acts ∧ w.state = s := by
  constructor
  · rintro ⟨ws, hws⟩
    exact web_run_workers hidle hws
  · rintro ⟨acts, w, hrun, halong, rfl⟩
    exact workers_run_web hrun halong [] (hidle.each [])

/-- The worker threads come to where the visit to the login page ends. -/
theorem lookup_in_one_step_visit :
    ∃ s, s.list.clients.length = 1 ∧ run (webStep smallConfig) smallStart askedVisit = some s ∧
      ∃ acts w, run (workerStep smallConfig) smallWorkers acts = some w ∧
        Along (workerStep smallConfig) Undisturbed smallWorkers acts ∧ w.state = s := by
  have hlen : (run (webStep smallConfig) smallStart askedVisit).map
      (fun s => s.list.clients.length) = some 1 := by
    decide +kernel
  obtain ⟨s, hs, hone⟩ := Option.map_eq_some_iff.mp hlen
  exact ⟨s, hone, hs, (lookup_in_one_step_iff smallConfig smallWorkers_idle s).mp ⟨askedVisit, hs⟩⟩

end Wifidog
