/-
  Which page answers a request.

  Content that is registered later comes first, and a directory is named by the segments of its
  path that are not empty: whatever was registered and in whatever order, a request is answered by
  the newest entry of its directory that fits its name, and by the content that was there before
  if there is none (`content_shadows`).

  On the gateway's own content this comes down to a table of paths (`gatewayPages`). Whatever
  bytes arrive, a request that is read is answered by the page of its path, or else as one for a
  page that the gateway does not have (`pages_of_requests`).
-/
import Wifidog.Model.Content
import Wifidog.Server.Reading

namespace Wifidog

open CText Paths

variable {φ : Type}

/-! ## Registered content -/

/-- Content added to a server, one entry after the other. -/
def addContents (server : Httpd φ) (regs : List (Text × HttpContent φ)) : Httpd φ :=
  regs.foldl (fun server reg => addContent server reg.1 reg.2) server

/-- The entry is in the directory and fits the name. -/
def fitsRequest (dirName entryName : Text) (reg : Text × HttpContent φ) : Bool :=
  dirNames reg.1 == dirNames dirName && reg.2.answers entryName

/-- What a server makes of a name, given the entries of the directory. -/
def serveFrom (preload : φ → Int) (server : Httpd φ) (entries : List (HttpContent φ))
    (entryName : Text) : Served φ :=
  match entries.find? (HttpContent.answers entryName) with
  | none => httpdSend404 server
  | some entry => serveEntry preload entryName entry

/-- A request in terms of the entries of its directory alone. -/
theorem httpdProcessRequest_eq (preload : φ → Int) (server : Httpd φ) (path : Text) :
    httpdProcessRequest preload server path =
      match splitPath path with
      | none => .nothing
      | some (dirName, entryName) =>
        serveFrom preload server (Trie.entriesAt (dirNames dirName) server.content) entryName := by
  unfold httpdProcessRequest Trie.entriesAt
  cases splitPath path with
  | none => rfl
  | some parts =>
    obtain ⟨dirName, entryName⟩ := parts
    simp only
    cases Trie.find? (dirNames dirName) server.content with
    | none => rfl
    | some dir => rfl

theorem httpdProcessRequest_addContent (preload : φ → Int) (server : Httpd φ)
    (reg : Text × HttpContent φ) (path : Text) :
    httpdProcessRequest preload (addContent server reg.1 reg.2) path =
      match splitPath path with
      | none => .nothing
      | some (dirName, entryName) =>
        if fitsRequest dirName entryName reg then serveEntry preload entryName reg.2
        else httpdProcessRequest preload server path := by
  rw [httpdProcessRequest_eq, httpdProcessRequest_eq]
  cases splitPath path with
  | none => rfl
  | some parts =>
    obtain ⟨dirName, entryName⟩ := parts
    have hsend : httpdSend404 (addContent server reg.1 reg.2) = httpdSend404 server := rfl
    have hcontent : (addContent server reg.1 reg.2).content =
        Trie.insert reg.2 (dirNames reg.1) server.content := rfl
    simp only [serveFrom, hsend, hcontent, Trie.entriesAt_insert, fitsRequest]
    by_cases hdir : dirNames dirName = dirNames reg.1
    · by_cases hname : reg.2.answers entryName = true
      · simp [hdir, hname]
      · simp [hdir, hname]
    · simp [hdir, Ne.symm hdir]

/-- Whatever is registered, and in whatever order: the newest entry that is in the directory of
    the request and fits its name answers it, and else the content that was there before. -/
theorem content_shadows (preload : φ → Int) (server : Httpd φ)
    (regs : List (Text × HttpContent φ)) (path : Text) :
    httpdProcessRequest preload (addContents server regs) path =
      match splitPath path with
      | none => .nothing
      | some (dirName, entryName) =>
        match regs.reverse.find? (fitsRequest dirName entryName) with
        | some reg => serveEntry preload entryName reg.2
        | none => httpdProcessRequest preload server path := by
  induction regs generalizing server with
  | nil =>
    rw [addContents, List.foldl_nil, httpdProcessRequest_eq]
    cases splitPath path <;> rfl
  | cons reg regs ih =>
    have hfold : addContents server (reg :: regs) =
        addContents (addContent server reg.1 reg.2) regs := rfl
    rw [hfold, ih, httpdProcessRequest_addContent]
    cases splitPath path with
    | none => rfl
    | some parts =>
      obtain ⟨dirName, entryName⟩ := parts
      simp only [List.reverse_cons, List.find?_append]
      cases regs.reverse.find? (fitsRequest dirName entryName) with
      | some found => rfl
      | none =>
        cases hreg : fitsRequest dirName entryName reg with
        | true => simp [hreg]
        | false => simp [hreg]

/-! ## Paths -/

theorem dirNames_join {segs : List Text} (hne : segs ≠ []) (hsegs : ∀ x ∈ segs, '/' ∉ x)
    (hshort : (join segs).length < httpMaxUrl) :
    dirNames (join segs) = segs.filter (· ≠ []) := by
  rw [dirNames, List.take_of_length_le (by omega), splitOn_join hne hsegs]

/-- The directories of a path, from what is left of it before its last slash. -/
theorem dirNames_init {path : Text} (hshort : path.length < httpMaxUrl) {x : Text}
    {dirs : List Text} {last : Text} (hjoin : path = join (x :: dirs ++ [last]))
    (hsegs : ∀ y ∈ x :: dirs ++ [last], '/' ∉ y) :
    dirNames (if join (x :: dirs) = [] then ['/'] else join (x :: dirs)) =
      (x :: dirs).filter (· ≠ []) := by
  split
  · next hempty =>
    obtain ⟨hx, hrest⟩ := List.append_eq_nil_iff.mp hempty
    cases dirs with
    | nil => rw [hx]; decide +kernel
    | cons y dirs => cases hrest
  · refine dirNames_join (List.cons_ne_nil x dirs)
      (fun y hy => hsegs y (List.mem_append_left _ hy)) ?_
    rw [hjoin, join_append_single (List.cons_ne_nil x dirs), List.length_append] at hshort
    omega

/-- A path is cut at its last slash. -/
theorem splitPath_eq {path : Text} (hshort : path.length < httpMaxUrl) {init : List Text}
    {last : Text} (hsplit : path.splitOn '/' = init ++ [last]) :
    splitPath path = if init = [] then none
      else some (if join init = [] then ['/'] else join init, last) := by
  have hsegs : ∀ x ∈ init ++ [last], '/' ∉ x := fun x hx => sep_not_mem_piece (hsplit ▸ hx)
  have hpath : path = join (init ++ [last]) := by rw [← hsplit, join_splitOn]
  have htake : path.take (httpMaxUrl - 1) = path := List.take_of_length_le (by omega)
  unfold splitPath
  rw [htake]
  cases init with
  | nil =>
    have hno : '/' ∉ path := by
      rw [hpath]
      simpa [join] using hsegs last (by simp)
    rw [if_pos rfl, if_neg hno]
  | cons x init =>
    rw [join_append_single (by simp)] at hpath
    have hmem : '/' ∈ path := by simp [hpath]
    have hlast : path.rtakeWhile (· != '/') = last := by
      rw [hpath, rtakeWhile_append_cons (by simp)]
      exact List.rtakeWhile_eq_self_iff.mpr fun c hc => by
        simpa using ne_of_mem_of_not_mem hc (hsegs last (by simp))
    have hcp : path.length - last.length - 1 = (join (x :: init)).length := by
      rw [hpath, List.length_append, List.length_cons]
      omega
    rw [if_pos hmem, if_neg (List.cons_ne_nil x init)]
    simp only [hlast, hcp]
    by_cases hempty : join (x :: init) = []
    · simp [hempty, hpath]
    · rw [if_pos (by simpa using hempty), if_neg hempty, hpath, List.take_left']
      rfl

/-! ## The gateway -/

/-- The names in the root and in `/wifidog`, the newest first. -/
def rootNames : List (Text × Callback) := [("wifidog".toList, .wifidog)]

def wifidogNames : List (Text × Callback) :=
  [("disconnect".toList, .disconnect), ("auth".toList, .auth), ("status".toList, .status),
    ("about".toList, .about), ([], .wifidog)]

def namesIn (dirs : List Text) : List (Text × Callback) :=
  if dirs = [] then rootNames else if dirs = ["wifidog".toList] then wifidogNames else []

/-- The paths that the gateway has a page for. -/
def gatewayPages : List (Text × Callback) :=
  [("/wifidog".toList, .wifidog), ("/wifidog/".toList, .wifidog),
    ("/wifidog/about".toList, .about), ("/wifidog/status".toList, .status),
    ("/wifidog/auth".toList, .auth), ("/wifidog/disconnect".toList, .disconnect),
    -- a path need not begin with a slash
    ("wifidog/".toList, .wifidog), ("wifidog/about".toList, .about),
    ("wifidog/status".toList, .status), ("wifidog/auth".toList, .auth),
    ("wifidog/disconnect".toList, .disconnect)]

/-- What answers a request for a path. -/
def pageOf (path : Text) : Served Callback :=
  if '/' ∈ path then .call ((gatewayPages.lookup path).getD .notFound) else .nothing

/-- An entry of the gateway's. -/
def callbackEntry (page : Text × Callback) : HttpContent Callback :=
  ⟨.cFunct page.2, some page.1, false, none⟩

theorem entriesAt_webserver (dirs : List Text) :
    Trie.entriesAt dirs webserver.content = (namesIn dirs).map callbackEntry := by
  have hroot : dirNames "/".toList = [] := by decide +kernel
  have hwifidog : dirNames "/wifidog".toList = ["wifidog".toList] := by decide +kernel
  simp only [webserver, httpdSetErrorFunction, httpdAddCContent, addContent, httpdCreate, hroot,
    hwifidog, Trie.entriesAt_insert, Trie.entriesAt_empty, namesIn]
  by_cases hnil : dirs = []
  · subst hnil
    rfl
  · by_cases hdir : dirs = ["wifidog".toList]
    · subst hdir
      rfl
    · simp only [hnil, hdir, if_false, List.map_nil]

theorem serveFrom_callbackEntry (pages : List (Text × Callback)) (entryName : Text) :
    serveFrom (fun _ => 0) webserver (pages.map callbackEntry) entryName =
      .call ((pages.lookup entryName).getD .notFound) := by
  unfold serveFrom
  induction pages with
  | nil => rfl
  | cons page pages ih =>
    obtain ⟨name, f⟩ := page
    have hanswers : (callbackEntry (name, f)).answers entryName = (name == entryName) := by
      simp [callbackEntry, HttpContent.answers]
    rw [List.map_cons, List.find?_cons, hanswers, List.lookup_cons]
    by_cases hname : name = entryName
    · subst hname
      simp only [beq_self_eq_true]
      rfl
    · have hne : (name == entryName) = false := by simpa using hname
      have hne' : (entryName == name) = false := by simpa using Ne.symm hname
      simp only [hne, hne']
      exact ih

theorem httpdProcessRequest_webserver (path : Text) :
    httpdProcessRequest (fun _ => 0) webserver path =
      match splitPath path with
      | none => .nothing
      | some (dirName, entryName) =>
        .call (((namesIn (dirNames dirName)).lookup entryName).getD .notFound) := by
  rw [httpdProcessRequest_eq]
  cases splitPath path with
  | none => rfl
  | some parts =>
    obtain ⟨dirName, entryName⟩ := parts
    simp only [entriesAt_webserver, serveFrom_callbackEntry]

/-- The paths that are sanitised and fit into their field. -/
structure PlainPath (path : Text) : Prop where
  clean : Tidy (path.splitOn '/')
  short : path.length < httpMaxUrl

/-- The paths of the names in a directory are in the table. -/
theorem join_mem_gatewayPages {x : Text} {dirs : List Text} (hdirs : [] ∉ dirs) {name : Text}
    (hname : name ∈ (namesIn ((x :: dirs).filter (· ≠ []))).map Prod.fst) :
    join (x :: dirs ++ [name]) ∈ gatewayPages.map Prod.fst := by
  have hroot : ∀ n ∈ rootNames.map Prod.fst, join ([[]] ++ [n]) ∈ gatewayPages.map Prod.fst := by
    decide +kernel
  have hwifidog : ∀ n ∈ wifidogNames.map Prod.fst,
      join ([[], "wifidog".toList] ++ [n]) ∈ gatewayPages.map Prod.fst ∧
        join (["wifidog".toList] ++ [n]) ∈ gatewayPages.map Prod.fst := by
    decide +kernel
  have hfilter : dirs.filter (· ≠ []) = dirs :=
    List.filter_eq_self.mpr fun y hy => by simpa using ne_of_mem_of_not_mem hy hdirs
  unfold namesIn at hname
  by_cases hx : x = []
  · rw [List.filter_cons_of_neg (by simp [hx]), hfilter] at hname
    subst hx
    split at hname
    · next hnil => rw [hnil]; exact hroot name hname
    · split at hname
      · next hdir => rw [hdir]; exact (hwifidog name hname).1
      · cases hname
  · rw [List.filter_cons_of_pos (by simp [hx]), hfilter, if_neg (by simp)] at hname
    split at hname
    · next hdir =>
      rw [hdir]
      exact (hwifidog name hname).2
    · cases hname

/-- A page is found for a sanitised path exactly if it is in the table. -/
theorem httpdProcessRequest_eq_pageOf {path : Text} (hpath : PlainPath path) :
    httpdProcessRequest (fun _ => 0) webserver path = pageOf path := by
  by_cases hpage : path ∈ gatewayPages.map Prod.fst
  · have hall : ∀ p ∈ gatewayPages.map Prod.fst,
        httpdProcessRequest (fun _ => 0) webserver p = pageOf p := by decide +kernel
    exact hall path hpage
  · have hnone : gatewayPages.lookup path = none :=
      List.lookup_eq_none_iff.mpr fun page hp => by
        simpa using (ne_of_mem_of_not_mem (List.mem_map_of_mem hp) hpage).symm
    obtain ⟨init, last, hsplit⟩ : ∃ init last, path.splitOn '/' = init ++ [last] :=
      ⟨_, _, (List.dropLast_append_getLast (List.splitOnP_ne_nil (· == '/') path)).symm⟩
    have hsegs : ∀ x ∈ init ++ [last], '/' ∉ x := fun x hx => sep_not_mem_piece (hsplit ▸ hx)
    have hjoin : path = join (init ++ [last]) := by rw [← hsplit, join_splitOn]
    rw [httpdProcessRequest_webserver, splitPath_eq hpath.short hsplit, pageOf, hnone]
    cases init with
    | nil =>
      have hno : '/' ∉ path := by
        rw [hjoin]
        simpa [join] using hsegs last (by simp)
      rw [if_pos rfl, if_neg hno]
    | cons x dirs =>
      have hmem : '/' ∈ path := by
        rw [hjoin, join_append_single (List.cons_ne_nil x dirs)]
        simp
      have hclean : [] ∉ dirs := by
        intro hnil
        have h := hpath.clean [] (by rw [hsplit, middle_concat]; exact hnil)
        exact h.1 rfl
      have hdirs : dirNames (if join (x :: dirs) = [] then ['/'] else join (x :: dirs)) =
          (x :: dirs).filter (· ≠ []) := dirNames_init hpath.short hjoin hsegs
      have hlast : last ∉ (namesIn ((x :: dirs).filter (· ≠ []))).map Prod.fst := fun h =>
        hpage (hjoin ▸ join_mem_gatewayPages hclean h)
      have hnone' : (namesIn ((x :: dirs).filter (· ≠ []))).lookup last = none :=
        List.lookup_eq_none_iff.mpr fun page hp => by
          simpa using (ne_of_mem_of_not_mem (List.mem_map_of_mem hp) hlast).symm
      rw [if_neg (List.cons_ne_nil x dirs), if_pos hmem]
      simp only [hdirs, hnone']

/-! ## Whatever arrives -/

theorem plainPath_nil : PlainPath [] := ⟨by simp [Tidy, middle], by decide⟩

theorem plainPath_sanitised {url : Text} (h : url.length < httpMaxUrl) :
    PlainPath (httpdSanitiseUrl url) := by
  refine ⟨?_, Nat.lt_of_le_of_lt (length_httpdSanitiseUrl_le url) h⟩
  rw [splitOn_httpdSanitiseUrl]
  exact middle_normalise _

theorem plainPath_requestLine {buf buf' : Text} {r r' : HttpReq}
    (h : requestLine buf r = some (buf', r')) : PlainPath r'.path := by
  obtain ⟨method, _, heq⟩ := Option.map_eq_some_iff.mp h
  rw [← (Prod.mk.inj heq).2]
  refine plainPath_sanitised (Nat.lt_of_le_of_lt (List.length_take_le _ _) ?_)
  decide

theorem path_requestHeader {buf : Text} {r r' : HttpReq} (h : requestHeader buf r = some r') :
    r'.path = r.path := by
  have hset : ∀ (r : HttpReq) (authBuf : Text), (setCredentials r authBuf).path = r.path := by
    intro r authBuf
    unfold setCredentials
    dsimp only
    split <;> rfl
  obtain ⟨r₁, hr₁, heq⟩ := Option.map_eq_some_iff.mp h
  have hpath : r'.path = r₁.path := by
    rw [← heq]
    split <;> rfl
  rw [hpath]
  split at hr₁
  · obtain ⟨authBuf, _, rfl⟩ := Option.map_eq_some_iff.mp hr₁
    exact hset r authBuf
  · cases hr₁
    rfl

/-- The query is cut off at its question mark. -/
theorem plainPath_processUrl {r : HttpReq} (h : PlainPath r.path) :
    PlainPath (processUrl r).path := by
  unfold processUrl
  dsimp only
  split
  · have happend := List.takeWhile_append_dropWhile (p := (· != '?')) (l := r.path)
    refine ⟨tidy_left (q := r.path.dropWhile (· != '?')) ?_, ?_⟩
    · rw [happend]
      exact h.clean
    · exact Nat.lt_of_le_of_lt (List.takeWhile_prefix _).length_le h.short
  · exact h

/-- Every request that is read has a path that is sanitised and fits. -/
theorem plainPath_readRequestText {fuel : Nat} {first : Bool} {buf bytes : Text} {r r' : HttpReq}
    (h : readRequestText fuel first buf r bytes = .request r') (hr : PlainPath r.path) :
    PlainPath r'.path := by
  induction fuel generalizing first buf bytes r with
  | zero =>
    cases h
    exact plainPath_processUrl hr
  | succ fuel ih =>
    unfold readRequestText at h
    split at h
    · cases h
      exact plainPath_processUrl hr
    · cases h
    · dsimp only at h
      split at h
      · split at h
        · cases h
        · next hline => exact ih h (plainPath_requestLine hline)
      · split at h
        · cases h
          exact plainPath_processUrl hr
        · split at h
          · cases h
          · next hheader => exact ih h ((path_requestHeader hheader).symm ▸ hr)

theorem page_of_read {junk : Text} {reads : List HttpChunk} {r : HttpReq}
    (h : httpdReadRequest junk reads = .request r) :
    httpdProcessRequest (fun _ => 0) webserver r.path = pageOf r.path := by
  rw [httpdReadRequest_eq] at h
  exact httpdProcessRequest_eq_pageOf (plainPath_readRequestText h plainPath_nil)

theorem threadHttpd_cases {junk : Text} {reads : List HttpChunk} {r : HttpReq}
    {served : Served Callback} (h : threadHttpd junk reads = some (some (r, served))) :
    httpdReadRequest junk reads = .request r ∧ served = pageOf r.path := by
  unfold threadHttpd at h
  split at h
  · cases h
  · cases h
  · next r' hread =>
    obtain ⟨rfl, rfl⟩ := Prod.mk.inj (Option.some.inj (Option.some.inj h))
    exact ⟨hread, page_of_read hread⟩

/-- Whatever arrives: a request that is read is answered by the page that the table has for its
    path, as one for an unknown page if it has none, and not at all without a slash, if no other
    lookup overlaps with its own. -/
theorem pages_of_requests (junk : Text) (reads : List HttpChunk) :
    threadHttpd junk reads =
      match httpdReadRequest junk reads with
      | .outside => none
      | .invalid => some none
      | .request r => some (some (r, pageOf r.path)) := by
  unfold threadHttpd
  cases hread : httpdReadRequest junk reads with
  | invalid => rfl
  | outside => rfl
  | request r => simp only [page_of_read hread]

end Wifidog
