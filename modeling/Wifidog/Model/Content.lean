/-
  The content of the web server (`_httpd_findContentDir`, `httpdAdd*Content`,
  `httpdProcessRequest` in libhttpd) and the gateway's pages (`main_loop`).

  Content is registered in a tree of directories, each entry in front of the older ones of its
  directory. A request's path is cut at its last slash: what stands before it names the
  directory, what stands behind it the entry. `strtok` gives the names of the directories, so
  empty names do not count. Its pointer into the path is static, and the worker threads share it:
  `dirNames` are the names that a lookup gets when no other one begins before it has ended.

  `φ` are the functions that content may call. What a file holds is not modelled, only which
  file is sent. `malloc` does not fail.
-/
import Mathlib.Data.List.DropRight
import Wifidog.Lib.Trie
import Wifidog.Model.Httpd

namespace Wifidog

open CText

/-! ## Content -/

/-- `type` of `httpContent`, with the field that goes with it. -/
inductive ContentType (φ : Type) where
  | file (path : Text)
  | cFunct (function : φ)
  | static (data : Text)
  | wildcard (path : Text)
  | cWildcard (function : φ)
  deriving DecidableEq, Repr

/-- `httpContent`; a wildcard has no name. -/
structure HttpContent (φ : Type) where
  type : ContentType φ
  name : Option Text
  indexFlag : Bool
  preload : Option φ
  deriving DecidableEq, Repr

/-- `httpDir`; the names are those of the children. -/
abbrev HttpDir (φ : Type) := Trie.Tree Text (HttpContent φ)

/-- The fields of `httpd` that a request's content depends on. -/
structure Httpd (φ : Type) where
  content : HttpDir φ
  fileBasePath : Text
  errorFunction304 : Option φ
  errorFunction403 : Option φ
  errorFunction404 : Option φ

/-- `httpdCreate` -/
def httpdCreate (φ : Type) : Httpd φ := ⟨.empty, [], none, none, none⟩

variable {φ : Type}

/-- The names that `strtok (buffer, "/")` finds in a copy of `dir`, if no other thread calls it
    meanwhile. -/
def dirNames (dir : Text) : List Text :=
  ((dir.take (httpMaxUrl - 1)).splitOn '/').filter (· ≠ [])

/-- `httpdSetFileBase` -/
def httpdSetFileBase (server : Httpd φ) (path : Text) : Httpd φ :=
  { server with fileBasePath := path.take (httpMaxUrl - 1) }

/-- Where a file is: "Absolute path" or "Path relative to base path". -/
def contentPath (server : Httpd φ) (path : Text) : Text :=
  if path.head? = some '/' then path
  else (server.fileBasePath ++ '/' :: path).take (httpMaxUrl - 1)

/-- What the `httpdAdd*Content` functions have in common: the directory is made if need be, and
    the entry put in front of its entries. -/
def addContent (server : Httpd φ) (dir : Text) (newEntry : HttpContent φ) : Httpd φ :=
  { server with content := Trie.insert newEntry (dirNames dir) server.content }

def httpdAddFileContent (server : Httpd φ) (dir name : Text) (indexFlag : Bool)
    (preload : Option φ) (path : Text) : Httpd φ :=
  addContent server dir ⟨.file (contentPath server path), some name, indexFlag, preload⟩

def httpdAddWildcardContent (server : Httpd φ) (dir : Text) (preload : Option φ) (path : Text) :
    Httpd φ :=
  addContent server dir ⟨.wildcard (contentPath server path), none, false, preload⟩

def httpdAddCContent (server : Httpd φ) (dir name : Text) (indexFlag : Bool) (preload : Option φ)
    (function : φ) : Httpd φ :=
  addContent server dir ⟨.cFunct function, some name, indexFlag, preload⟩

def httpdAddCWildcardContent (server : Httpd φ) (dir : Text) (preload : Option φ)
    (function : φ) : Httpd φ :=
  addContent server dir ⟨.cWildcard function, none, false, preload⟩

def httpdAddStaticContent (server : Httpd φ) (dir name : Text) (indexFlag : Bool)
    (preload : Option φ) (data : Text) : Httpd φ :=
  addContent server dir ⟨.static data, some name, indexFlag, preload⟩

/-- `httpdSetErrorFunction`; any other code is only logged. -/
def httpdSetErrorFunction (server : Httpd φ) (error : Nat) (function : φ) : Httpd φ :=
  match error with
  | 304 => { server with errorFunction304 := some function }
  | 403 => { server with errorFunction403 := some function }
  | 404 => { server with errorFunction404 := some function }
  | _ => server

/-! ## Requests -/

/-- An entry at which the loop of `_httpd_findContentEntry` stops. -/
def HttpContent.answers (entryName : Text) (e : HttpContent φ) : Bool :=
  match e.type with
  | .wildcard _ => true
  | .cWildcard _ => true
  | _ => (entryName.isEmpty && e.indexFlag) || e.name == some entryName

/-- `_httpd_findContentEntry` -/
def httpdFindContentEntry (dir : HttpDir φ) (entryName : Text) : Option (HttpContent φ) :=
  dir.entries.find? (HttpContent.answers entryName)

/-- `dirName` and `entryName` of `httpdProcessRequest`, when there is a slash in the path. -/
def splitPath (path : Text) : Option (Text × Text) :=
  let dirName := path.take (httpMaxUrl - 1)
  if '/' ∈ dirName then
    let entryName := dirName.rtakeWhile (· != '/')
    let cp := dirName.length - entryName.length - 1
    some (if cp ≠ 0 then dirName.take cp else dirName.take 1, entryName)
  else none

/-- What a request is answered with. -/
inductive Served (φ : Type) where
  /-- not at all: "Invalid request path", or a `preload` that fails -/
  | nothing
  /-- a function of the gateway is called -/
  | call (function : φ)
  | static (data : Text)
  | file (path : Text)
  /-- "Send stock 404" -/
  | stock404
  deriving DecidableEq, Repr

/-- `_httpd_send404` -/
def httpdSend404 (server : Httpd φ) : Served φ :=
  match server.errorFunction404 with
  | some function => .call function
  | none => .stock404

/-- The `switch` of `httpdProcessRequest`. -/
def serveEntry (preload : φ → Int) (entryName : Text) (entry : HttpContent φ) : Served φ :=
  if entry.preload.any fun f => preload f < 0 then .nothing
  else
    match entry.type with
    | .cFunct function => .call function
    | .cWildcard function => .call function
    | .static data => .static data
    | .file path => .file path
    | .wildcard path => .file ((path ++ '/' :: entryName).take (httpMaxUrl - 1))

/-- `httpdProcessRequest`, with no other lookup while it walks; `preload` is what the functions
    given as `preload` return. -/
def httpdProcessRequest (preload : φ → Int) (server : Httpd φ) (path : Text) : Served φ :=
  match splitPath path with
  | none => .nothing
  | some (dirName, entryName) =>
    match Trie.find? (dirNames dirName) server.content with
    | none => httpdSend404 server
    | some dir =>
      match httpdFindContentEntry dir entryName with
      | none => httpdSend404 server
      | some entry => serveEntry preload entryName entry

/-! ## The gateway's pages -/

/-- The functions of http.c that `main_loop` registers. -/
inductive Callback where
  | wifidog | about | status | auth | disconnect | notFound
  deriving DecidableEq, Repr

/-- "Assigning callbacks to web server" -/
def webserver : Httpd Callback :=
  let server := httpdCreate Callback
  let server := httpdAddCContent server "/".toList "wifidog".toList false none .wifidog
  let server := httpdAddCContent server "/wifidog".toList [] false none .wifidog
  let server := httpdAddCContent server "/wifidog".toList "about".toList false none .about
  let server := httpdAddCContent server "/wifidog".toList "status".toList false none .status
  let server := httpdAddCContent server "/wifidog".toList "auth".toList false none .auth
  let server := httpdAddCContent server "/wifidog".toList "disconnect".toList false none .disconnect
  httpdSetErrorFunction server 404 .notFound

/-- `thread_httpd`: the request that was read and what answers it, or nothing when there was no
    valid request; `none` when memory was overwritten. -/
def threadHttpd (junk : Text) (reads : List HttpChunk) : Option (Option (HttpReq × Served Callback)) :=
  match httpdReadRequest junk reads with
  | .outside => none
  | .invalid => some none
  | .request r => some (some (r, httpdProcessRequest (fun _ => 0) webserver r.path))

end Wifidog
