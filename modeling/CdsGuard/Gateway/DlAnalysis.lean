import CdsGuard.Gateway.AuditLog
import CdsGuard.Gateway.Censored
import CdsGuard.Gateway.DocumentText
import CdsGuard.Lib.Http
import CdsGuard.Lib.Json

/-
  The analysis of a text by the service: `get_string_matched_info_by_dl` sends the text as JSON in
  an HTTP/1.1 request, `request_dl_analysis_coro` reads until the connection ends and takes what is
  behind the first empty line for the body, and a JSON parser reads that. The status, the length and
  the coding that the service announces are not looked at.

  The JSON library is a parameter, and so is the service: it reads requests as HTTP/1.1, and the
  connection may fail or end anywhere.

  Proved: the filter gets the findings of the service for this very text, all of them, or nothing;
  and it gets them exactly when the answer came in one piece, uncoded, up to white space
  (`analysis_is_whole`). No connection that ends early leaves it with a part of the findings.
-/

namespace CdsGuard.Gateway

open CdsGuard.Lib CdsGuard.Lib.Json

/-! ## The request and its answer -/

/-- `request_str`, for the address of the service and `request_body`. -/
def requestStr (host body : Bytes) : Bytes :=
  ascii "POST /analyze_text HTTP/1.1\r\n" ++
  (ascii "Host: " ++ host ++ ascii "\r\n") ++
  ascii "Accept: application/json\r\n" ++
  ascii "Content-Type: application/json; charset=utf-8\r\n" ++
  (ascii "Content-Length: " ++ ascii (toString body.length) ++ ascii "\r\n") ++
  ascii "Connection: close\r\n\r\n" ++ body

/-- How a request ended: no connection, or an error on it, or the bytes up to its end. -/
inductive Exchange where
  | failed
  | ended (httpBody : Bytes)

def requestDlAnalysisCoro : Exchange → Bytes
  | .failed => []
  | .ended httpBody =>
    match findFrom httpBody Http.headEnd 0 with
    | some bodyStart => httpBody.drop (bodyStart + 4)
    | none => []

/-- What `json::parse` makes of a text that it does not discard. -/
inductive Parsed where
  | array (items : List DlItem)
  | other

/-- The items that `get_string_matched_info_by_dl` goes through. -/
def dlResponse (dump : Bytes → Option Bytes) (parse : Bytes → Option Parsed) (host : Bytes)
    (exchange : Bytes → Exchange) (input : Bytes) : Option (List DlItem) := do
  let requestBody ← dump input
  let jsonResponseBody := requestDlAnalysisCoro (exchange (requestStr host requestBody))
  if jsonResponseBody = [] then none
  else
    match parse jsonResponseBody with
    | some (.array items) => some items
    | _ => none

/-! ## JSON and the service -/

/-- The parser skips a byte order mark. -/
def skipBom (bs : Bytes) : Bytes := if bs.take 3 = [0xef, 0xbb, 0xbf] then bs.drop 3 else bs

/-- `json::parse` reads JSON texts and nothing else; a NUL would end its input. An array begins with
    its bracket, and white space behind a text changes nothing. -/
structure ParsesJson (parse : Bytes → Option Parsed) : Prop where
  text : ∀ bs v, 0 ∉ bs → parse bs = some v → IsText (skipBom bs)
  array : ∀ bs items, parse bs = some (.array items) →
    ∃ ws rest, Spaces ws ∧ skipBom bs = ws ++ openArray :: rest
  spaces : ∀ bs ws, Spaces ws → parse (bs ++ ws) = parse bs

/-- The analysis service: the text in the body of a request, what it finds in a text, and the lines,
    the JSON array and, where it sends them so, the chunks of its answer. -/
structure AnalysisService where
  loads : Bytes → Option Bytes
  findings : Bytes → List DlItem
  lines : Bytes → List Bytes
  json : Bytes → Bytes
  chunks : Bytes → Option (List Bytes)

namespace AnalysisService

def body (sv : AnalysisService) (text : Bytes) : Bytes :=
  match sv.chunks text with
  | none => sv.json text
  | some datas => Http.chunked datas

def response (sv : AnalysisService) (text : Bytes) : Bytes :=
  Http.head (sv.lines text) ++ sv.body text

/-- What the service sends for the bytes that it receives. -/
def respond (sv : AnalysisService) (stream : Bytes) : Option Bytes := do
  let message ← Http.readMessage stream
  let text ← sv.loads message.2
  return sv.response text

/-- It sends HTTP messages whose body is the JSON array of its findings. -/
structure Sound (sv : AnalysisService) (parse : Bytes → Option Parsed) : Prop where
  lines : ∀ text, ∀ l ∈ sv.lines text, Http.IsLine l
  lines_ne : ∀ text, sv.lines text ≠ []
  json : ∀ text, IsArrayText (sv.json text)
  parse : ∀ text, parse (sv.json text) = some (.array (sv.findings text))
  chunks : ∀ text datas, sv.chunks text = some datas → datas.flatten = sv.json text

/-- A connection to the service carries what it sends, up to where it ends. -/
def Carries (sv : AnalysisService) (exchange : Bytes → Exchange) : Prop :=
  ∀ request received, exchange request = .ended received →
    ∃ lost, (sv.respond request).getD [] = received ++ lost

/-- The whole answer for a text arrives, up to white space, and it is not in chunks. -/
def ArrivesWhole (sv : AnalysisService) (dump : Bytes → Option Bytes) (host : Bytes)
    (exchange : Bytes → Exchange) (text : Bytes) : Prop :=
  ∃ requestBody received ws, dump text = some requestBody ∧
    exchange (requestStr host requestBody) = .ended received ∧ sv.chunks text = none ∧
    Spaces ws ∧ received ++ ws = sv.response text

end AnalysisService

/-! ## What the service reads -/

/-- The lines of the request. -/
def requestLines (host : Bytes) (length : Nat) : List Bytes :=
  [ascii "POST /analyze_text HTTP/1.1", ascii "Host: " ++ host, ascii "Accept: application/json",
    ascii "Content-Type: application/json; charset=utf-8",
    ascii "Content-Length: " ++ ascii (toString length), ascii "Connection: close"]

theorem requestStr_eq (host body : Bytes) :
    requestStr host body = Http.head (requestLines host body.length) ++ body := by
  have hpost : ascii "POST /analyze_text HTTP/1.1\r\n" =
      ascii "POST /analyze_text HTTP/1.1" ++ Http.crlf := by decide
  have haccept : ascii "Accept: application/json\r\n" =
      ascii "Accept: application/json" ++ Http.crlf := by decide
  have htype : ascii "Content-Type: application/json; charset=utf-8\r\n" =
      ascii "Content-Type: application/json; charset=utf-8" ++ Http.crlf := by decide
  have hclose : ascii "Connection: close\r\n\r\n" =
      ascii "Connection: close" ++ (Http.crlf ++ Http.crlf) := by decide
  have hcrlf : ascii "\r\n" = Http.crlf := by decide
  rw [requestStr, hpost, haccept, htype, hclose, hcrlf, requestLines]
  simp only [Http.head, List.flatMap_cons, List.flatMap_nil, List.nil_append, List.append_assoc]

theorem requestLines_isLine {host : Bytes} (hcr : Http.cr ∉ host) (hlf : Http.lf ∉ host)
    (length : Nat) : ∀ l ∈ requestLines host length, Http.IsLine l := by
  have hdigits : ∀ b ∈ ascii (toString length), b ≠ Http.cr ∧ b ≠ Http.lf := by
    intro b hb
    obtain ⟨hlo, -⟩ := Http.mem_toString hb
    constructor <;> rintro rfl <;> revert hlo <;> decide
  simp only [requestLines, List.forall_mem_cons]
  refine ⟨?_, ?_, ?_, ?_, ?_, ?_, fun _ h => absurd h List.not_mem_nil⟩
  · exact ⟨by decide, by decide, by decide⟩
  · refine ⟨List.append_ne_nil_of_left_ne_nil (by decide) host, ?_, ?_⟩
    · rw [List.mem_append, not_or]
      exact ⟨by decide, hcr⟩
    · rw [List.mem_append, not_or]
      exact ⟨by decide, hlf⟩
  · exact ⟨by decide, by decide, by decide⟩
  · exact ⟨by decide, by decide, by decide⟩
  · refine ⟨List.append_ne_nil_of_left_ne_nil (by decide) _, ?_, ?_⟩
    · rw [List.mem_append, not_or]
      exact ⟨by decide, fun h => (hdigits _ h).1 rfl⟩
    · rw [List.mem_append, not_or]
      exact ⟨by decide, fun h => (hdigits _ h).2 rfl⟩
  · exact ⟨by decide, by decide, by decide⟩

theorem field_contentLength (host : Bytes) (length : Nat) :
    Http.field (utf8 "content-length".toList) (requestLines host length).tail =
      some (ascii (toString length)) := by
  have hhost : Http.fieldName (ascii "Host: " ++ host) = ascii "host" :=
    Http.fieldName_append (ascii "Host") (by decide) _
  have hname : Http.fieldName (ascii "Content-Length: " ++ ascii (toString length)) =
      utf8 "content-length".toList :=
    Http.fieldName_append (ascii "Content-Length") (by decide) _
  have hvalue : Http.fieldValue (ascii "Content-Length: " ++ ascii (toString length)) =
      trim Http.isBlank (0x20 :: ascii (toString length)) :=
    Http.fieldValue_append (ascii "Content-Length") (by decide) _
  have hblank : ∀ b ∈ ascii (toString length), Http.isBlank b = false := by
    intro b hb
    obtain ⟨hlo, -⟩ := Http.mem_toString hb
    have h20 : b ≠ 0x20 := by rintro rfl; revert hlo; decide
    have h09 : b ≠ 0x09 := by rintro rfl; revert hlo; decide
    rw [Http.isBlank, beq_false_of_ne h20, beq_false_of_ne h09, Bool.or_self]
  have htrim : trim Http.isBlank (0x20 :: ascii (toString length)) = ascii (toString length) := by
    show trim Http.isBlank (ascii (toString length)) = _
    exact trim_eq_self_iff.mpr ⟨fun b hb => hblank b (List.mem_of_mem_head? hb),
      fun b hb => hblank b (List.mem_of_mem_getLast? hb)⟩
  rw [requestLines, List.tail_cons, Http.field_cons_of_ne (by rw [hhost]; decide),
    Http.field_cons_of_ne (by decide), Http.field_cons_of_ne (by decide),
    Http.field_cons_self hname, hvalue, htrim]

/-- **The service reads the whole body** that the request announces. -/
theorem readMessage_requestStr {host : Bytes} (hcr : Http.cr ∉ host) (hlf : Http.lf ∉ host)
    (body : Bytes) : Http.readMessage (requestStr host body) =
      some (requestLines host body.length, body) := by
  rw [requestStr_eq]
  exact Http.readMessage_head (requestLines_isLine hcr hlf body.length)
    (field_contentLength host body.length) (Http.decimal_toString body.length)

/-! ## What the filter takes from the answer -/

theorem skipBom_of_head {bs : Bytes} (h : bs.head? ≠ some 0xef) : skipBom bs = bs := by
  refine if_neg fun hbom => h ?_
  have hhead := List.head?_take (i := 3) (l := bs)
  rw [hbom, if_neg (by decide)] at hhead
  exact hhead.symm

/-- What is behind the head, as far as it came. -/
theorem requestDlAnalysisCoro_ended {lines : List Bytes} (h : ∀ l ∈ lines, Http.IsLine l)
    (hne : lines ≠ []) {received lost body : Bytes}
    (heq : received ++ lost = Http.head lines ++ body) :
    requestDlAnalysisCoro (.ended received) = received.drop (Http.head lines).length := by
  obtain ⟨bs, hbs⟩ := Http.headEnd_prefix hne
  have hlen : (Http.head lines).length = bs.length + 4 := by rw [hbs, List.length_append]; rfl
  -- where the end of the head has come, it is found
  have hthere : (Http.head lines).length ≤ received.length →
      Http.headEnd <+: received.drop bs.length := by
    intro hle
    have hpre : Http.head lines <+: received := List.prefix_of_prefix_length_le
      (List.prefix_append _ body) (heq ▸ List.prefix_append _ lost) hle
    obtain ⟨q, rfl⟩ := hpre
    rw [hbs, List.append_assoc, List.drop_left]
    exact List.prefix_append _ q
  -- and nothing is found before it
  have hfirst : ∀ i, Http.headEnd <+: received.drop i → bs.length ≤ i := by
    intro i hi
    have hle : Http.headEnd.length ≤ (received.drop i).length := hi.length_le
    have hocc : Http.headEnd <+: (Http.head lines ++ body).drop i := by
      rw [← heq, List.drop_append_of_le_length]
      · exact hi.trans (List.prefix_append _ lost)
      · rw [List.length_drop] at hle
        have : Http.headEnd.length = 4 := rfl
        omega
    have := Http.le_of_headEnd h hocc
    omega
  show (match findFrom received Http.headEnd 0 with
    | some bodyStart => received.drop (bodyStart + 4)
    | none => []) = _
  split
  · next i hi =>
    obtain ⟨-, hile, hocc, hmin⟩ := findFrom_eq_some_iff.mp hi
    have hle := hocc.length_le
    have hfour : Http.headEnd.length = 4 := rfl
    rw [List.length_drop] at hle
    have hbsi := hfirst i hocc
    have hibs : i ≤ bs.length := by
      by_contra hlt
      exact hmin bs.length (Nat.zero_le _) (by omega) (hthere (by omega))
    rw [hlen, Nat.le_antisymm hibs hbsi]
  · next hnone =>
    rw [List.drop_eq_nil_of_le]
    by_contra hlt
    exact findFrom_eq_none_iff.mp hnone bs.length (Nat.zero_le _) (by omega) (hthere (by omega))

namespace AnalysisService

variable {sv : AnalysisService} {dump : Bytes → Option Bytes} {parse : Bytes → Option Parsed}
  {host : Bytes} {exchange : Bytes → Exchange}

/-- What has come of a body is read as an array only if nothing but white space is missing. -/
theorem Sound.of_cut (hsv : sv.Sound parse) (hparse : ParsesJson parse) {q lost text : Bytes}
    {items : List DlItem} (heq : q ++ lost = sv.body text) (h : parse q = some (.array items)) :
    sv.chunks text = none ∧ Spaces lost ∧ items = sv.findings text := by
  obtain ⟨ws, rest, hws, hskip⟩ := hparse.array q items h
  unfold body at heq
  cases hchunks : sv.chunks text with
  | some datas =>
    exfalso
    have hdigit : ∀ d < 16, Http.hexDigit d ≠ 0xef ∧ Http.hexDigit d ≠ openArray ∧
        ¬IsSpace (Http.hexDigit d) := by decide
    rw [hchunks] at heq
    obtain ⟨d, rest', hd, hchunked⟩ := Http.chunked_head datas
    obtain ⟨hbom, harray, hspace⟩ := hdigit d hd
    have hq : q ++ lost = Http.hexDigit d :: rest' := heq.trans hchunked
    cases q with
    | nil => exact absurd hskip (by simp [skipBom])
    | cons b q =>
      obtain rfl : b = Http.hexDigit d := (List.cons.inj hq).1
      rw [skipBom_of_head (by simpa using hbom)] at hskip
      cases ws with
      | nil => exact harray (List.cons.inj hskip).1
      | cons c ws =>
        obtain rfl : Http.hexDigit d = c := (List.cons.inj hskip).1
        exact hspace (hws _ List.mem_cons_self)
  | none =>
    rw [hchunks] at heq
    replace heq : q ++ lost = sv.json text := heq
    have harr : IsArrayText (q ++ lost) := heq ▸ hsv.json text
    have hbom : skipBom q = q := by
      refine skipBom_of_head fun hhead => ?_
      obtain ⟨-, ws', rest', hws', hjson⟩ := harr
      have hhead' : (ws' ++ openArray :: rest').head? = some 0xef := by
        rw [← hjson, List.head?_append, hhead]
        rfl
      cases ws' with
      | nil => exact absurd (Option.some.inj hhead') (by decide)
      | cons c ws' =>
        obtain rfl : c = 0xef := Option.some.inj hhead'
        exact absurd (hws' _ List.mem_cons_self) (by decide)
    have hnul : 0 ∉ q := by
      intro hmem
      rcases harr.1.printed 0 (List.mem_append_left lost hmem) with hspace | hle
      · exact absurd hspace (by decide)
      · exact absurd hle (by decide)
    have htext : IsText q := hbom ▸ hparse.text q _ hnul h
    have hlost := htext.spaces_of_cut harr
    have hfindings := hsv.parse text
    rw [← heq, hparse.spaces q lost hlost, h] at hfindings
    cases hfindings
    exact ⟨rfl, hlost, rfl⟩

theorem respond_requestStr (hloads : ∀ text b, dump text = some b → sv.loads b = some text)
    (hcr : Http.cr ∉ host) (hlf : Http.lf ∉ host) {input requestBody : Bytes}
    (h : dump input = some requestBody) :
    sv.respond (requestStr host requestBody) = some (sv.response input) := by
  rw [respond, readMessage_requestStr hcr hlf]
  show (sv.loads requestBody).bind _ = _
  rw [hloads input requestBody h]
  rfl

theorem dlResponse_eq_some_iff (hparse : ParsesJson parse) (hsv : sv.Sound parse)
    (hloads : ∀ text b, dump text = some b → sv.loads b = some text)
    (hcr : Http.cr ∉ host) (hlf : Http.lf ∉ host) (hex : sv.Carries exchange) (input : Bytes)
    (items : List DlItem) :
    dlResponse dump parse host exchange input = some items ↔
      sv.ArrivesWhole dump host exchange input ∧ items = sv.findings input := by
  have hcoro : ∀ received lost, received ++ lost = sv.response input →
      requestDlAnalysisCoro (.ended received) =
        received.drop (Http.head (sv.lines input)).length := fun received lost heq =>
    requestDlAnalysisCoro_ended (hsv.lines input) (hsv.lines_ne input) heq
  constructor
  · intro h
    obtain ⟨requestBody, hdump, h⟩ := Option.bind_eq_some_iff.mp h
    obtain ⟨hne, h⟩ := Option.ite_none_left_eq_some.mp h
    cases hx : exchange (requestStr host requestBody) with
    | failed =>
      rw [hx] at hne
      exact absurd rfl hne
    | ended received =>
      obtain ⟨lost, hlost⟩ := hex _ _ hx
      rw [respond_requestStr hloads hcr hlf hdump, Option.getD_some] at hlost
      rw [hx, hcoro received lost hlost.symm] at hne h
      have hsplit : ∃ q, received = Http.head (sv.lines input) ++ q ∧
          q ++ lost = sv.body input := by
        rcases List.append_eq_append_iff.mp hlost with ⟨q, rfl, hq⟩ | ⟨q, hq, -⟩
        · exact ⟨q, rfl, hq.symm⟩
        · refine absurd (List.drop_eq_nil_of_le ?_) hne
          rw [hq, List.length_append]
          exact Nat.le_add_right _ _
      obtain ⟨q, rfl, hq⟩ := hsplit
      rw [List.drop_left] at h
      split at h
      · next items' hitems =>
        cases h
        obtain ⟨hchunks, hspaces, hfindings⟩ := hsv.of_cut hparse hq hitems
        exact ⟨⟨requestBody, _, lost, hdump, hx, hchunks, hspaces, hlost.symm⟩, hfindings⟩
      · cases h
  · rintro ⟨⟨requestBody, received, ws, hdump, hx, hchunks, hws, heq⟩, rfl⟩
    have hbody : sv.body input = sv.json input := by rw [body, hchunks]
    obtain ⟨htext, ws', rest', -, hjson⟩ := hsv.json input
    have hsplit : ∃ q, received = Http.head (sv.lines input) ++ q ∧ sv.json input = q ++ ws := by
      rw [response, hbody] at heq
      rcases List.append_eq_append_iff.mp heq with ⟨q, -, hq⟩ | ⟨q, rfl, hq⟩
      · -- the bracket is not white space, so it has come
        exact absurd (hws openArray (by rw [hq, hjson]; simp)) (by decide)
      · exact ⟨q, rfl, hq⟩
    obtain ⟨q, rfl, hq⟩ := hsplit
    have hne : q ≠ [] := by
      rintro rfl
      exact htext.not_spaces (by rw [hq]; exact hws)
    have hq' : parse q = some (.array (sv.findings input)) := by
      rw [← hparse.spaces q ws hws, ← hq, hsv.parse]
    refine Option.bind_eq_some_iff.mpr ⟨requestBody, hdump, ?_⟩
    rw [hx, hcoro _ ws heq, List.drop_left]
    show (if q = [] then _ else _) = _
    rw [if_neg hne, hq']

/-- **All or nothing**: the filter goes through the findings of the service for its text exactly
    when their array has come, and without it finds nothing. -/
theorem analysis_is_whole (hparse : ParsesJson parse) (hsv : sv.Sound parse)
    (hloads : ∀ text b, dump text = some b → sv.loads b = some text)
    (hcr : Http.cr ∉ host) (hlf : Http.lf ∉ host) (hex : sv.Carries exchange) (rounds : Nat)
    (input : Bytes) :
    (∀ items, dlResponse dump parse host exchange input = some items ↔
      sv.ArrivesWhole dump host exchange input ∧ items = sv.findings input) ∧
    (¬sv.ArrivesWhole dump host exchange input →
      getStringMatchedInfoByDl rounds (dlResponse dump parse host exchange input) input =
        some []) := by
  have hiff := dlResponse_eq_some_iff hparse hsv hloads hcr hlf hex input
  refine ⟨hiff, fun hnot => ?_⟩
  have hnone : dlResponse dump parse host exchange input = none := by
    rw [Option.eq_none_iff_forall_ne_some]
    exact fun items hitems => hnot ((hiff items).mp hitems).1
  rw [hnone]
  rfl

/-! A service that finds one thing in every text, asked for the text `secret`. -/

def sampleText : Bytes := ascii "secret"

def sampleBody : Bytes := ascii "\x7b\"text\":\"secret\"\x7d"

def sampleJson : Bytes := ascii "[\x7b\"score\":1,\"start\":0,\"end\":6\x7d]"

def sampleItem : DlItem := ⟨true, .is 1, .is 0, .is 6⟩

def sampleDump (text : Bytes) : Option Bytes := if text = sampleText then some sampleBody else none

/-- It knows one array. -/
def sampleParse (bs : Bytes) : Option Parsed :=
  if bs.rdropWhile (fun b => decide (IsSpace b)) = sampleJson then some (.array [sampleItem])
  else none

def sample : AnalysisService where
  loads body := if body = sampleBody then some sampleText else none
  findings _ := [sampleItem]
  lines _ := [ascii "HTTP/1.1 200 OK"]
  json _ := sampleJson
  chunks _ := none

theorem sampleJson_isArrayText : IsArrayText sampleJson := by
  have hnil : Spaces [] := fun _ h => absurd h List.not_mem_nil
  have hmember : ∀ (key : Bytes) (d : UInt8), (∀ b ∈ key, 0x20 ≤ b ∧ b ≠ quote ∧ b ≠ backslash) →
      IsDigit d → Derives .member _ := fun key d hkey hd =>
    .member hnil (.string (.of_plain hkey)) hnil (.element hnil (.number (.digit hd)) hnil)
  have hscore := hmember (ascii "score") 0x31 (by decide +kernel) ⟨by decide, by decide⟩
  have hstart := hmember (ascii "start") 0x30 (by decide +kernel) ⟨by decide, by decide⟩
  have hend := hmember (ascii "end") 0x36 (by decide +kernel) ⟨by decide, by decide⟩
  have hobject := Derives.object (.members hscore (.members hstart (.lastMember hend)))
  have hvalue := Derives.array (.lastElement (.element hnil hobject hnil))
  have htext : IsText _ := .element hnil hvalue hnil
  exact ⟨htext, [], _, hnil, rfl⟩

theorem sampleParse_parsesJson : ParsesJson sampleParse := by
  have hsplit : ∀ bs v, sampleParse bs = some v → ∃ ws, Spaces ws ∧ bs = sampleJson ++ ws := by
    intro bs v h
    obtain ⟨hbs, -⟩ := Option.ite_none_right_eq_some.mp h
    refine ⟨bs.rtakeWhile fun b => decide (IsSpace b), fun b hb => ?_, ?_⟩
    · have hb' := List.mem_rtakeWhile_imp hb
      exact of_decide_eq_true hb'
    · rw [← hbs, List.rdropWhile_append_rtakeWhile]
  have hbom : ∀ ws, skipBom (sampleJson ++ ws) = sampleJson ++ ws := fun ws =>
    skipBom_of_head fun h => absurd (Option.some.inj h) (by decide)
  obtain ⟨htext, ws₀, rest₀, hws₀, hjson⟩ := sampleJson_isArrayText
  constructor
  · intro bs v _ h
    obtain ⟨ws, hws, rfl⟩ := hsplit bs v h
    rw [hbom]
    exact htext.append_spaces hws
  · intro bs items h
    obtain ⟨ws, -, rfl⟩ := hsplit bs _ h
    exact ⟨ws₀, rest₀ ++ ws, hws₀, by rw [hbom, hjson, List.append_assoc, List.cons_append]⟩
  · intro bs ws hws
    have hdrop : (bs ++ ws).rdropWhile (fun b => decide (IsSpace b)) =
        bs.rdropWhile fun b => decide (IsSpace b) := by
      induction ws using List.reverseRecOn with
      | nil => rw [List.append_nil]
      | append_singleton ws b ih =>
        obtain ⟨hws, hb⟩ := List.forall_mem_append.mp hws
        rw [← List.append_assoc, List.rdropWhile_concat_pos (fun b => decide (IsSpace b)) (bs ++ ws)
          b (decide_eq_true (List.forall_mem_singleton.mp hb)), ih hws]
    rw [sampleParse, hdrop]
    rfl

theorem sampleParse_sampleJson : sampleParse sampleJson = some (.array [sampleItem]) := by
  have hdrop : sampleJson.rdropWhile (fun b => decide (IsSpace b)) = sampleJson := by
    decide +kernel
  rw [sampleParse, if_pos hdrop]

theorem sample_sound : sample.Sound sampleParse where
  lines _ := List.forall_mem_singleton.mpr ⟨by decide, by decide, by decide⟩
  lines_ne _ := List.cons_ne_nil _ _
  json _ := sampleJson_isArrayText
  parse _ := sampleParse_sampleJson
  chunks _ _ h := by cases h

theorem sample_loads : ∀ text b, sampleDump text = some b → sample.loads b = some text := by
  intro text b h
  obtain ⟨rfl, hb⟩ := Option.ite_none_right_eq_some.mp h
  cases hb
  show (if sampleBody = sampleBody then some sampleText else none) = _
  rw [if_pos rfl]

/-- The answer comes whole, and without the bracket at its end. -/
theorem analysis_is_whole_sample :
    (∃ exchange, dlResponse sampleDump sampleParse [] exchange sampleText = some [sampleItem]) ∧
      ∃ exchange, getStringMatchedInfoByDl 6
        (dlResponse sampleDump sampleParse [] exchange sampleText) sampleText = some [] := by
  have hcr : Http.cr ∉ ([] : Bytes) := List.not_mem_nil
  have hlf : Http.lf ∉ ([] : Bytes) := List.not_mem_nil
  have hrespond : sample.respond (requestStr [] sampleBody) = some (sample.response sampleText) :=
    respond_requestStr sample_loads hcr hlf rfl
  constructor
  · have hex : sample.Carries fun request => .ended ((sample.respond request).getD []) := by
      intro request received h
      cases h
      exact ⟨[], (List.append_nil _).symm⟩
    refine ⟨_, ((analysis_is_whole sampleParse_parsesJson sample_sound sample_loads hcr hlf hex 6
      sampleText).1 _).mpr ⟨⟨sampleBody, _, [], rfl, rfl, rfl,
        fun _ h => absurd h List.not_mem_nil, ?_⟩, rfl⟩⟩
    rw [hrespond, List.append_nil]
    rfl
  · have hex : sample.Carries fun request =>
        .ended (((sample.respond request).getD []).take 49) := by
      intro request received h
      cases h
      exact ⟨_, (List.take_append_drop 49 _).symm⟩
    refine ⟨_, (analysis_is_whole sampleParse_parsesJson sample_sound sample_loads hcr hlf hex 6
      sampleText).2 ?_⟩
    rintro ⟨requestBody, received, ws, hdump, hx, -, hws, heq⟩
    obtain rfl : sampleBody = requestBody := Option.some.inj hdump
    dsimp only at hx
    rw [hrespond, Option.getD_some] at hx
    cases hx
    have hlast : ws = (sample.response sampleText).drop 49 := by
      rw [← List.take_append_drop 49 (sample.response sampleText)] at heq
      exact List.append_cancel_left heq
    have hbracket : (sample.response sampleText).drop 49 = [closeArray] := by decide +kernel
    exact absurd (hws closeArray (by rw [hlast, hbracket]; exact List.mem_singleton_self _))
      (by decide)

end AnalysisService

end CdsGuard.Gateway
