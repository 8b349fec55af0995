/-
  What stands on a page.

  `httpdOutput` is meant to copy the template with every variable replaced by its value, once
  (`expandPage`). It does so, inside its buffers, if and only if the page and every name fit
  (`output_expands_iff`); its own count of the page leaves the values out and does not guard the
  buffer.

  The variables of the request come before those of the page. So whoever writes the link writes on
  the page: the gateway's pages are as it means them, for every template, exactly for the requests
  without a variable that a template could name (`page_own_iff`).
-/
import Wifidog.Lib.Template
import Wifidog.Model.Page
import Wifidog.Server.Reading
import Wifidog.Server.Requests
import Wifidog.Server.Sanitise

namespace Wifidog

open CText Paths Template

/-! ## The template -/

/-- The template with the values of its variables. -/
def expandPage (vars : List HttpVar) (msg : Text) : Text :=
  expand '$' isVarChar (httpdGetVariableByName vars) 0 msg

/-- The names of the variables in a template. -/
def pageNames (msg : Text) : List Text := names '$' isVarChar msg

theorem isVarChar_mark : isVarChar '$' = false := by decide

section Output
variable {vars : List HttpVar}

/-- A character is copied, if there is room for it. -/
def outputCopy (vars : List HttpVar) (count : Nat) (buf : Text) (c : Char) (src : Text) :
    Option Text :=
  if buf.length < httpMaxLen then outputLoop vars 0 (count + 1) (buf ++ [c]) src else none

/-- The count is never ahead of the buffer, so where it ends the loop there is no room for the
    terminating NUL either. -/
theorem outputLoop_plain {count : Nat} {buf : Text} (hcount : count ≤ buf.length) {c : Char}
    (hc : c ≠ '$') (src : Text) :
    outputLoop vars 0 count buf (c :: src) = outputCopy vars count buf c src := by
  unfold outputLoop
  rw [if_neg hc, outputCopy]
  by_cases hroom : buf.length < httpMaxLen
  · rw [if_pos (by omega)]
  · simp only [if_neg hroom, ite_self]

theorem outputLoop_mark {count : Nat} {buf : Text} (hcount : count ≤ buf.length) (src : Text) :
    outputLoop vars 0 count buf ('$' :: src) =
      if (src.takeWhile isVarChar).length < varNameLen then
        match httpdGetVariableByName vars (src.takeWhile isVarChar) with
        | some value =>
          if count + value.length < httpMaxLen then
            if buf.length + value.length < httpMaxLen then
              outputLoop vars (src.takeWhile isVarChar).length count (buf ++ value) src
            else none
          else outputCopy vars count buf '$' src
        | none => outputCopy vars count buf '$' src
      else none := by
  have hshort : ((src.takeWhile isVarChar).take varNameLen).length < varNameLen ↔
      (src.takeWhile isVarChar).length < varNameLen := by
    rw [List.length_take]
    omega
  conv_lhs => unfold outputLoop
  dsimp only
  rw [if_pos rfl]
  by_cases hname : (src.takeWhile isVarChar).length < varNameLen
  · rw [if_pos (hshort.mpr hname), if_pos hname, List.take_of_length_le (Nat.le_of_lt hname)]
    by_cases hroom : count < httpMaxLen
    · rw [if_pos hroom]
      rfl
    · have hfull : outputCopy vars count buf '$' src = none := if_neg (by omega)
      rw [if_neg hroom, if_neg (by omega), hfull]
      split
      · rw [if_neg (by omega)]
      · rfl
  · rw [if_neg (fun h => hname (hshort.mp h)), if_neg hname]
    split
    · rfl
    · rw [if_neg (by omega)]

/-- While everything fits, the loop expands. -/
theorem outputLoop_fits {skip count : Nat} {buf src : Text} (hcount : count ≤ buf.length)
    (hnames : ∀ name ∈ pageNames src, name.length < varNameLen)
    (hlen : (buf ++ expand '$' isVarChar (httpdGetVariableByName vars) skip src).length <
      httpMaxLen) :
    outputLoop vars skip count buf src =
      some (buf ++ expand '$' isVarChar (httpdGetVariableByName vars) skip src) := by
  induction src generalizing skip count buf with
  | nil =>
    cases skip <;>
      · rw [expand, List.append_nil] at hlen ⊢
        rw [outputLoop, if_pos hlen]
  | cons c src ih =>
    have hrest : ∀ name ∈ pageNames src, name.length < varNameLen :=
      fun name hname => hnames name (names_tail_subset c src hname)
    cases skip with
    | succ skip =>
      rw [expand] at hlen ⊢
      rw [outputLoop]
      exact ih hcount hrest hlen
    | zero =>
      have hroom : buf.length < httpMaxLen := by
        rw [List.length_append] at hlen
        omega
      have hcopy
          (h : (buf ++ c :: expand '$' isVarChar (httpdGetVariableByName vars) 0 src).length <
            httpMaxLen) :
          outputCopy vars count buf c src =
            some (buf ++ c :: expand '$' isVarChar (httpdGetVariableByName vars) 0 src) := by
        rw [List.append_cons] at h ⊢
        rw [outputCopy, if_pos hroom]
        exact ih (by simpa using hcount) hrest h
      by_cases hc : c = '$'
      · subst hc
        have hshort : (src.takeWhile isVarChar).length < varNameLen :=
          hnames _ (by rw [pageNames, names_mark]; exact List.mem_cons_self)
        rw [expand, if_pos rfl] at hlen ⊢
        rw [outputLoop_mark hcount, if_pos hshort]
        cases hget : httpdGetVariableByName vars (src.takeWhile isVarChar) with
        | none =>
          rw [hget] at hlen
          exact hcopy hlen
        | some value =>
          rw [hget] at hlen
          dsimp only at hlen ⊢
          have hvalue : buf.length + value.length < httpMaxLen := by
            simp only [List.length_append] at hlen
            omega
          rw [if_pos (by omega), if_pos hvalue]
          rw [← List.append_assoc] at hlen ⊢
          exact ih (by rw [List.length_append]; omega) hrest hlen
      · rw [expand, if_neg hc] at hlen ⊢
        rw [outputLoop_plain hcount hc]
        exact hcopy hlen

/-- What comes out fits, and so does every name that was looked up. -/
theorem fits_of_outputLoop {skip count : Nat} {buf src page : Text} (hcount : count ≤ buf.length)
    (h : outputLoop vars skip count buf src = some page) :
    page.length < httpMaxLen ∧ ∀ name ∈ pageNames (src.drop skip), name.length < varNameLen := by
  induction src generalizing skip count buf with
  | nil =>
    rw [List.drop_nil]
    refine ⟨?_, fun name hname => absurd hname List.not_mem_nil⟩
    cases skip <;>
      · rw [outputLoop, Option.ite_none_right_eq_some] at h
        obtain ⟨hlen, hpage⟩ := h
        rwa [← Option.some.inj hpage]
  | cons c src ih =>
    cases skip with
    | succ skip => exact ih hcount h
    | zero =>
      rw [List.drop_zero]
      have hcopy (h : outputCopy vars count buf c src = some page) :
          page.length < httpMaxLen ∧ ∀ name ∈ pageNames src, name.length < varNameLen := by
        rw [outputCopy, Option.ite_none_right_eq_some] at h
        exact ih (by simpa using hcount) h.2
      by_cases hc : c = '$'
      · subst hc
        rw [outputLoop_mark hcount, Option.ite_none_right_eq_some] at h
        obtain ⟨hshort, h⟩ := h
        rw [pageNames, names_mark, List.forall_mem_cons]
        cases hget : httpdGetVariableByName vars (src.takeWhile isVarChar) with
        | none =>
          rw [hget] at h
          exact ⟨(hcopy h).1, hshort, (hcopy h).2⟩
        | some value =>
          rw [hget] at h
          dsimp only at h
          split at h
          · rw [Option.ite_none_right_eq_some] at h
            have hrest := ih (by rw [List.length_append]; omega) h.2
            rw [drop_takeWhile, pageNames, names_dropWhile isVarChar_mark] at hrest
            exact ⟨hrest.1, hshort, hrest.2⟩
          · exact ⟨(hcopy h).1, hshort, (hcopy h).2⟩
      · rw [outputLoop_plain hcount hc] at h
        rw [pageNames, names_plain hc]
        exact hcopy h

/-- Where no value is too long for the count, a page that is too long is written all the same. -/
theorem outputLoop_overruns {skip count : Nat} {buf src : Text} (hcount : count ≤ buf.length)
    (hroom : ∀ name ∈ pageNames src, ∀ value, httpdGetVariableByName vars name = some value →
      count + src.length + value.length < httpMaxLen)
    (hlen : httpMaxLen ≤
      (buf ++ expand '$' isVarChar (httpdGetVariableByName vars) skip src).length) :
    outputLoop vars skip count buf src = none := by
  induction src generalizing skip count buf with
  | nil =>
    cases skip <;>
      · rw [expand, List.append_nil] at hlen
        rw [outputLoop, if_neg (by omega)]
  | cons c src ih =>
    rw [List.length_cons] at hroom
    have hrest : ∀ name ∈ pageNames src, ∀ value, httpdGetVariableByName vars name = some value →
        count + 1 + src.length + value.length < httpMaxLen := by
      intro name hname value hget
      have hfits := hroom name (names_tail_subset c src hname) value hget
      omega
    have hrest' : ∀ name ∈ pageNames src, ∀ value, httpdGetVariableByName vars name = some value →
        count + src.length + value.length < httpMaxLen := by
      intro name hname value hget
      have hfits := hrest name hname value hget
      omega
    cases skip with
    | succ skip =>
      rw [expand] at hlen
      rw [outputLoop]
      exact ih hcount hrest' hlen
    | zero =>
      have hcopy (h : httpMaxLen ≤
          (buf ++ c :: expand '$' isVarChar (httpdGetVariableByName vars) 0 src).length) :
          outputCopy vars count buf c src = none := by
        rw [List.append_cons] at h
        rw [outputCopy]
        split
        · exact ih (by simpa using hcount) hrest h
        · rfl
      by_cases hc : c = '$'
      · subst hc
        rw [expand, if_pos rfl] at hlen
        rw [outputLoop_mark hcount]
        split
        · cases hget : httpdGetVariableByName vars (src.takeWhile isVarChar) with
          | none =>
            rw [hget] at hlen
            exact hcopy hlen
          | some value =>
            rw [hget] at hlen
            dsimp only at hlen ⊢
            have hvalue := hroom _ (by rw [pageNames, names_mark]; exact List.mem_cons_self)
              value hget
            rw [← List.append_assoc] at hlen
            rw [if_pos (by omega)]
            split
            · exact ih (by rw [List.length_append]; omega) hrest' hlen
            · rfl
        · rfl
      · rw [expand, if_neg hc] at hlen
        rw [outputLoop_plain hcount hc]
        exact hcopy hlen

theorem httpdOutput_eq_iff (msg : Text) :
    httpdOutput vars msg = some (expandPage vars msg) ↔
      (expandPage vars msg).length < httpMaxLen ∧
        ∀ name ∈ pageNames msg, name.length < varNameLen := by
  constructor
  · intro h
    exact fits_of_outputLoop (Nat.zero_le _) h
  · rintro ⟨hlen, hnames⟩
    exact outputLoop_fits (Nat.zero_le _) hnames hlen

end Output

/-! ## Values of a request -/

/-- The values are shorter than this. -/
def ShortValues (n : Nat) (vars : List HttpVar) : Prop := ∀ v ∈ vars, v.value.length < n

theorem shortValues_append {n : Nat} {vars : List HttpVar} {value : Text}
    (h : ShortValues n vars) (hvalue : value.length < n) (name : Text) :
    ShortValues n (appendVariable name value vars) := by
  induction vars with
  | nil =>
    intro v hv
    rw [appendVariable, List.mem_singleton] at hv
    rwa [hv]
  | cons v vars ih =>
    obtain ⟨hv, hvars⟩ := List.forall_mem_cons.mp h
    rw [appendVariable]
    split
    · exact List.forall_mem_cons.mpr ⟨hv, ih hvars⟩
    · exact List.forall_mem_cons.mpr ⟨hv, hvars⟩

theorem length_unescapeFrom_le (str q p : Text) :
    (unescapeFrom str q p).length ≤ q.length + p.length := by
  fun_induction unescapeFrom str q p with
  | case1 => simp
  | case2 => simp
  | case3 => simp
  | case4 q hi lo p ih =>
    simp only [List.length_append, List.length_cons, List.length_nil] at ih ⊢
    omega
  | case5 q c p _ _ _ ih =>
    simp only [List.length_append, List.length_cons, List.length_nil] at ih ⊢
    omega

theorem length_httpdUnescape_le (str : Text) : (httpdUnescape str).length ≤ str.length := by
  have hdecoded := length_unescapeFrom_le str [] str
  rw [List.length_nil, Nat.zero_add] at hdecoded
  rw [httpdUnescape, cstrAt, List.drop_zero]
  exact (List.takeWhile_prefix _).length_le.trans hdecoded

theorem shortValues_storeLoop {n : Nat} {var : Text} {cp2 : Nat} {val : Option Text}
    {vars : List HttpVar} {query : Text} (h : ShortValues n vars)
    (hlen : (val.getD []).length + query.length < n) :
    ShortValues n (storeLoop var cp2 val vars query) := by
  have hadd (name val : Text) (hval : val.length < n) :
      ShortValues n (httpdAddVariable vars name (httpdUnescape val)) :=
    shortValues_append h (Nat.lt_of_le_of_lt (length_httpdUnescape_le val) hval) _
  induction query generalizing var cp2 val vars with
  | nil =>
    cases val with
    | none => exact h
    | some val => exact hadd _ val (by simpa using hlen)
  | cons c query ih =>
    rw [List.length_cons] at hlen
    have hnext {vars : List HttpVar} (h : ShortValues n vars) {var : Text} {cp2 : Nat}
        {val : Option Text} (hlen : (val.getD []).length + query.length < n) :
        ShortValues n (storeLoop var cp2 val vars query) :=
      ih h hlen fun name val hval =>
        shortValues_append h (Nat.lt_of_le_of_lt (length_httpdUnescape_le val) hval) _
    unfold storeLoop
    split
    · exact hnext h (by simp; omega)
    · split
      · exact hnext (hadd _ _ (by omega)) (by simp; omega)
      · cases val with
        | none => exact hnext h (by simp; omega)
        | some val => exact hnext h (by simp at hlen ⊢; omega)

/-- What `httpdReadRequest` keeps while it reads lines. -/
structure Unread (r : HttpReq) : Prop where
  vars : r.vars = []
  path : r.path.length < httpMaxUrl

theorem Unread.processUrl {r : HttpReq} (h : Unread r) :
    ShortValues httpMaxUrl (processUrl r).vars := by
  have hnone : ShortValues httpMaxUrl r.vars := by
    rw [h.vars]
    exact fun v hv => absurd hv List.not_mem_nil
  unfold Wifidog.processUrl
  dsimp only
  split
  · refine shortValues_storeLoop hnone ?_
    have hpath := h.path
    simp only [Option.getD_none, List.length_nil, List.length_drop]
    omega
  · exact hnone

theorem Unread.requestLine {buf buf' : Text} {r r' : HttpReq} (h : Unread r)
    (hline : requestLine buf r = some (buf', r')) : Unread r' := by
  obtain ⟨method, -, heq⟩ := Option.map_eq_some_iff.mp hline
  obtain ⟨-, rfl⟩ := Prod.mk.inj heq
  refine ⟨h.vars, Nat.lt_of_le_of_lt (length_httpdSanitiseUrl_le _) ?_⟩
  exact (List.length_take_le _ _).trans_lt (by decide)

theorem Unread.requestHeader {buf : Text} {r r' : HttpReq} (h : Unread r)
    (hheader : requestHeader buf r = some r') : Unread r' := by
  have hset (r : HttpReq) (authBuf : Text) :
      (setCredentials r authBuf).vars = r.vars ∧ (setCredentials r authBuf).path = r.path := by
    unfold setCredentials
    dsimp only
    split <;> exact ⟨rfl, rfl⟩
  unfold Wifidog.requestHeader at hheader
  obtain ⟨r1, hr1, heq⟩ := Option.map_eq_some_iff.mp hheader
  have hsame : r1.vars = r.vars ∧ r1.path = r.path := by
    split at hr1
    · obtain ⟨authBuf, -, rfl⟩ := Option.map_eq_some_iff.mp hr1
      exact hset r authBuf
    · cases hr1
      exact ⟨rfl, rfl⟩
  subst heq
  split <;>
    · constructor
      · exact hsame.1.trans h.vars
      · exact (congrArg List.length hsame.2).trans_lt h.path

theorem shortValues_readRequestText {fuel : Nat} {first : Bool} {buf bytes : Text} {r r' : HttpReq}
    (h : Unread r) (hread : readRequestText fuel first buf r bytes = .request r') :
    ShortValues httpMaxUrl r'.vars := by
  induction fuel generalizing first buf r bytes with
  | zero =>
    cases hread
    exact h.processUrl
  | succ fuel ih =>
    unfold readRequestText at hread
    split at hread
    · cases hread
      exact h.processUrl
    · cases hread
    · dsimp only at hread
      split at hread
      · split at hread
        · cases hread
        · next hline => exact ih (h.requestLine hline) hread
      · split at hread
        · cases hread
          exact h.processUrl
        · split at hread
          · cases hread
          · next hheader => exact ih (h.requestHeader hheader) hread

/-- The value of a variable comes from the URL. -/
theorem length_of_variable {junk : Text} {reads : List HttpChunk} {r : HttpReq}
    (hread : httpdReadRequest junk reads = .request r) {name value : Text}
    (hget : httpdGetVariableByName r.vars name = some value) : value.length < httpMaxUrl := by
  rw [httpdReadRequest_eq] at hread
  obtain ⟨v, hv, rfl⟩ := Option.map_eq_some_iff.mp hget
  exact shortValues_readRequestText ⟨rfl, by decide⟩ hread v (List.mem_of_find?_eq_some hv)

/-! ## The gateway's pages -/

/-- What a template's variable stands for on a page of the gateway. -/
def ownValue (title message gwId name : Text) : Text :=
  if name = "title".toList then title
  else if name = "message".toList then message
  else if name = "nodeID".toList then gwId
  else '$' :: name

/-- The page as the gateway means it. -/
def ownPage (title message gwId file : Text) : Text :=
  expandPage (pageVars [] title message gwId) (file.takeWhile (· != '\x00'))

section Own
variable (vars : List HttpVar) (title message gwId : Text)

/-- The variables of the request come first. -/
theorem get_pageVars (name : Text) :
    httpdGetVariableByName (pageVars vars title message gwId) name =
      (httpdGetVariableByName vars name).or
        (httpdGetVariableByName (pageVars [] title message gwId) name) := by
  unfold pageVars httpdAddVariable
  simp only [httpdGetVariableByName_append, Option.or_assoc]
  rfl

theorem meaning_pageVars_nil (name : Text) :
    meaning '$' (httpdGetVariableByName (pageVars [] title message gwId)) name =
      ownValue title message gwId name := by
  have hnil : httpdGetVariableByName [] name = none := rfl
  have hwords : "title".toList.dropWhile isBlank = "title".toList ∧
      "message".toList.dropWhile isBlank = "message".toList ∧
      "nodeID".toList.dropWhile isBlank = "nodeID".toList := by decide
  unfold meaning pageVars httpdAddVariable ownValue
  simp only [httpdGetVariableByName_append, hnil, Option.none_or]
  by_cases htitle : name = "title".toList
  · subst htitle
    rfl
  · by_cases hmessage : name = "message".toList
    · subst hmessage
      rfl
    · by_cases hnode : name = "nodeID".toList
      · subst hnode
        rfl
      · rw [hwords.1, hwords.2.1, hwords.2.2, if_neg htitle, if_neg hmessage, if_neg hnode,
          if_neg (Ne.symm htitle), if_neg (Ne.symm hmessage), if_neg (Ne.symm hnode)]
        rfl

/-- A request that brings a variable that a template can name, with a value of its own. -/
def Forges (name value : Text) : Prop :=
  httpdGetVariableByName vars name = some value ∧ (∀ c ∈ name, isVarChar c = true) ∧
    name.length < varNameLen ∧ (ownValue title message gwId name).length < httpMaxLen ∧
    value ≠ ownValue title message gwId name

theorem meaning_pageVars {name : Text} (h : ∀ value, ¬ Forges vars title message gwId name value)
    (hchars : ∀ c ∈ name, isVarChar c = true) (hshort : name.length < varNameLen)
    (hown : (ownValue title message gwId name).length < httpMaxLen) :
    meaning '$' (httpdGetVariableByName (pageVars vars title message gwId)) name =
      ownValue title message gwId name := by
  unfold meaning
  rw [get_pageVars]
  cases hget : httpdGetVariableByName vars name with
  | none =>
    rw [Option.none_or]
    exact meaning_pageVars_nil title message gwId name
  | some value =>
    by_contra hne
    exact h value ⟨hget, hchars, hshort, hown, hne⟩

end Own

/-- The page is the template with its variables replaced, each once, and nothing is written behind
    the buffers, if and only if it fits the one and every name the other. That a page is too long
    is not noticed while every value is short enough to follow the whole template: then it is
    written behind the buffer. -/
theorem output_expands_iff (vars : List HttpVar) (msg : Text) :
    (httpdOutput vars msg = some (expandPage vars msg) ↔
      (expandPage vars msg).length < httpMaxLen ∧
        ∀ name ∈ pageNames msg, name.length < varNameLen) ∧
    ((∀ name ∈ pageNames msg, ∀ value, httpdGetVariableByName vars name = some value →
        msg.length + value.length < httpMaxLen) →
      httpMaxLen ≤ (expandPage vars msg).length → httpdOutput vars msg = none) := by
  refine ⟨httpdOutput_eq_iff msg, fun hroom hlen => ?_⟩
  refine outputLoop_overruns (Nat.zero_le _) ?_ hlen
  simpa only [Nat.zero_add] using hroom

theorem expandPage_title_message (title message gwId : Text) :
    expandPage (pageVars [] title message gwId) "$title$message".toList = title ++ message := by
  have hrun : "title$message".toList.takeWhile isVarChar = "title".toList ∧
      "title$message".toList.dropWhile isVarChar = '$' :: "message".toList := by decide
  have hown : ownValue title message gwId "title".toList = title ∧
      ownValue title message gwId "message".toList = message := ⟨rfl, rfl⟩
  show expand '$' isVarChar _ 0 ('$' :: "title$message".toList) = _
  rw [expand_mark isVarChar_mark, hrun.1, hrun.2, meaning_pageVars_nil, hown.1,
    expand_variable isVarChar_mark (by decide), meaning_pageVars_nil, hown.2]

/-- A title and a text of 6000 characters pass the checks one by one; shorter ones fit. -/
theorem output_expands_long :
    httpdOutput (pageVars [] (List.replicate 6000 'a') (List.replicate 6000 'b') [])
      "$title$message".toList = none ∧
    httpdOutput (pageVars [] "Status: ".toList "up".toList []) "$title$message".toList =
      some "Status: up".toList := by
  have hnames : pageNames "$title$message".toList = ["title".toList, "message".toList] := by decide
  constructor
  · refine (output_expands_iff _ _).2 ?_ ?_
    · have hvalues : ShortValues 6001
          (pageVars [] (List.replicate 6000 'a') (List.replicate 6000 'b') []) :=
        shortValues_append (shortValues_append (shortValues_append (fun v hv => by cases hv)
          (by rw [List.length_replicate]; decide) _) (by rw [List.length_replicate]; decide) _)
          (by decide) _
      intro name _ value hget
      obtain ⟨v, hv, rfl⟩ := Option.map_eq_some_iff.mp hget
      exact Nat.lt_trans (Nat.add_lt_add_left (hvalues v (List.mem_of_find?_eq_some hv)) _)
        (by decide)
    · rw [expandPage_title_message, List.length_append, List.length_replicate,
        List.length_replicate]
      decide
  · have hpage := expandPage_title_message "Status: ".toList "up".toList []
    have hfits := (output_expands_iff (pageVars [] "Status: ".toList "up".toList [])
      "$title$message".toList).1.mpr ⟨by rw [hpage]; decide, by rw [hnames]; decide⟩
    rwa [hpage] at hfits

theorem isVarChar_of_pageNames {msg name : Text} (h : name ∈ pageNames msg) :
    ∀ c ∈ name, isVarChar c = true := by
  induction msg with
  | nil => exact absurd h List.not_mem_nil
  | cons c msg ih =>
    by_cases hc : c = '$'
    · subst hc
      rw [pageNames, names_mark] at h
      rcases List.mem_cons.mp h with rfl | h
      · exact fun d hd => List.mem_takeWhile_imp hd
      · exact ih h
    · rw [pageNames, names_plain hc] at h
      exact ih h

theorem takeWhile_variable {name : Text} (h : ∀ c ∈ name, isVarChar c = true) :
    ('$' :: name).takeWhile (· != '\x00') = '$' :: name := by
  refine List.takeWhile_eq_self_iff.mpr fun c hc => ?_
  rcases List.mem_cons.mp hc with rfl | hc
  · decide
  · have hchar := h c hc
    by_contra hnul
    have hc : c = '\x00' := by simpa using hnul
    rw [hc] at hchar
    cases hchar

/-- A template that is one variable. -/
theorem output_variable (vars : List HttpVar) {name : Text}
    (hchars : ∀ c ∈ name, isVarChar c = true) (hshort : name.length < varNameLen)
    (hlen : (meaning '$' (httpdGetVariableByName vars) name).length < httpMaxLen) :
    httpdOutput vars ('$' :: name) = some (meaning '$' (httpdGetVariableByName vars) name) := by
  have hexpand : expandPage vars ('$' :: name) = meaning '$' (httpdGetVariableByName vars) name :=
    expand_variable isVarChar_mark hchars
  have hnames : pageNames ('$' :: name) = [name] := by
    rw [pageNames, names_mark, ← names_dropWhile isVarChar_mark name,
      List.dropWhile_eq_nil_iff.mpr hchars, List.takeWhile_eq_self_iff.mpr hchars]
    rfl
  rw [← hexpand, httpdOutput_eq_iff, hexpand, hnames]
  exact ⟨hlen, List.forall_mem_singleton.mpr hshort⟩

/-- Every page that the gateway can send as it means it is sent so, whatever the template, if and
    only if the request brings no variable with a value of its own that a template can name. -/
theorem page_own_iff {junk : Text} {reads : List HttpChunk} {r : HttpReq}
    (hread : httpdReadRequest junk reads = .request r) (title message gwId : Text) :
    (∀ file, sendHttpPage (some file) gwId [] title message =
        some (some (ownPage title message gwId file)) →
      sendHttpPage (some file) gwId r.vars title message =
        some (some (ownPage title message gwId file))) ↔
      ∀ name value, ¬ Forges r.vars title message gwId name value := by
  have hsend (vars : List HttpVar) (file page : Text) :
      sendHttpPage (some file) gwId vars title message = some (some page) ↔
        httpdOutput (pageVars vars title message gwId) (file.takeWhile (· != '\x00')) =
          some page := by
    simp [sendHttpPage]
  constructor
  · -- the template with that variable and nothing else
    rintro h name value ⟨hget, hchars, hshort, hown, hne⟩
    have hmeaning : meaning '$' (httpdGetVariableByName (pageVars r.vars title message gwId)) name =
        value := by
      unfold meaning
      rw [get_pageVars, hget]
      rfl
    have hvalue : value.length < httpMaxLen :=
      (length_of_variable hread hget).trans (by decide)
    have houtOwn := output_variable (pageVars [] title message gwId) hchars hshort
      (by rwa [meaning_pageVars_nil])
    have hout := output_variable (pageVars r.vars title message gwId) hchars hshort
      (by rwa [hmeaning])
    rw [meaning_pageVars_nil] at houtOwn
    rw [hmeaning] at hout
    have hpage : ownPage title message gwId ('$' :: name) = ownValue title message gwId name := by
      rw [ownPage, takeWhile_variable hchars, expandPage, expand_variable isVarChar_mark hchars,
        meaning_pageVars_nil]
    have hsame := h ('$' :: name)
    rw [hsend, hsend, takeWhile_variable hchars, hpage, hout] at hsame
    exact hne (Option.some.inj (hsame houtOwn))
  · intro h file hown
    rw [hsend, ownPage, httpdOutput_eq_iff] at hown
    obtain ⟨hlen, hnames⟩ := hown
    have hsame : expandPage (pageVars r.vars title message gwId) (file.takeWhile (· != '\x00')) =
        ownPage title message gwId file := by
      refine expand_congr isVarChar_mark fun name hname => ?_
      -- what stands for the name is part of the page, and so it fits
      have hown : (ownValue title message gwId name).length < httpMaxLen := by
        rw [← meaning_pageVars_nil]
        exact (length_meaning_le isVarChar_mark hname).trans_lt hlen
      rw [meaning_pageVars_nil, meaning_pageVars _ _ _ _ (h name) (isVarChar_of_pageNames hname)
        (hnames name hname) hown]
    rw [hsend, ← hsame, httpdOutput_eq_iff, hsame]
    exact ⟨hlen, hnames⟩

/-- The link to a page, without a variable. -/
def aboutSent : Sent := ⟨.get, "/wifidog/about".toList, [], []⟩

/-- The same link with a title. -/
def titledSent : Sent := { aboutSent with pairs := [("title".toList, "Free".toList)] }

theorem aboutSent_wf : aboutSent.Wf where
  ne_nil := by decide
  path := by
    unfold TargetChar
    decide
  clean := by
    unfold Tidy
    decide +kernel
  form := by
    unfold FormPairs
    decide +kernel
  names := by simp [aboutSent]
  short := by decide +kernel
  headers := by simp [aboutSent]

theorem titledSent_wf : titledSent.Wf where
  ne_nil := aboutSent_wf.ne_nil
  path := aboutSent_wf.path
  clean := aboutSent_wf.clean
  form := by
    unfold FormPairs
    decide +kernel
  names := by
    unfold TargetChar
    decide
  short := by decide +kernel
  headers := aboutSent_wf.headers

/-- A request that comes in one read. -/
theorem read_at_once {sent : Sent} (hsent : sent.Wf) (hheaders : sent.headers = [])
    (hchunk : sent.text ≠ [] ∧ sent.text.length ≤ httpReadBufLen) (junk : Text) :
    httpdReadRequest junk [⟨sent.text, hchunk⟩] = .request sent.received := by
  have harrived : arrived [⟨sent.text, hchunk⟩] = sent.text ++ [] := rfl
  rw [httpdReadRequest_sent hsent harrived, if_pos (by simp [hheaders])]

/-- The link decides on the title of the page. -/
theorem page_own_about :
    (∀ file, sendHttpPage (some file) "gw".toList [] "About".toList "1.3".toList =
        some (some (ownPage "About".toList "1.3".toList "gw".toList file)) →
      sendHttpPage (some file) "gw".toList aboutSent.received.vars "About".toList "1.3".toList =
        some (some (ownPage "About".toList "1.3".toList "gw".toList file))) ∧
    ¬ ∀ file, sendHttpPage (some file) "gw".toList [] "About".toList "1.3".toList =
        some (some (ownPage "About".toList "1.3".toList "gw".toList file)) →
      sendHttpPage (some file) "gw".toList titledSent.received.vars "About".toList "1.3".toList =
        some (some (ownPage "About".toList "1.3".toList "gw".toList file)) := by
  constructor
  · refine (page_own_iff (read_at_once aboutSent_wf rfl (by decide +kernel) []) _ _ _).mpr ?_
    rintro name value ⟨hget, -⟩
    cases hget
  · rw [page_own_iff (read_at_once titledSent_wf rfl (by decide +kernel) []) _ _ _]
    intro hno
    refine hno "title".toList "Free".toList ⟨?_, by decide, by decide, by decide, by decide⟩
    rw [received_variable titledSent_wf]
    rfl

end Wifidog
