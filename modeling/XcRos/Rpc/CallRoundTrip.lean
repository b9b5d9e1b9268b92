import Mathlib.Data.Bool.AllAny
import XcRos.Rpc.Client
import XcRos.Rpc.CodableValue
import XcRos.Rpc.RequestInput

/-! # A call and its response over the wire

What the client writes into a request the server reads out of it, and what the server writes into a response the
client reads: results as results and faults as faults.
-/

namespace XcRos.Rpc

open XcRos.Foundation

/-! ## Texts of the server -/

def faultCode : Bytes := bytes "faultCode"
def faultString : Bytes := bytes "faultString"
def responseBegin : Bytes := bytes "<?xml version=\"1.0\"?>\r\n<methodResponse><params><param>\r\n\t"
def responseEnd : Bytes := bytes "\r\n</param></params></methodResponse>\r\n"
def faultBegin : Bytes := bytes "<?xml version=\"1.0\"?>\r\n<methodResponse><fault>\r\n\t"
def faultEnd : Bytes := bytes "\r\n</fault></methodResponse>\r\n"

/-- The header that `RobotRpcServerConnection::generateHeader` puts in front. -/
def responseHeader (body : Bytes) : Bytes :=
  bytes "HTTP/1.1 200 OK\r\nServer: " ++ robotRpcVersion ++ bytes "\r\nContent-Type: text/xml\r\nContent-length: " ++
    (printInt (Int32.ofNat body.length).toInt ++ bytes "\r\n\r\n")

def responseBody (resultXml : Bytes) : Bytes := responseBegin ++ resultXml ++ responseEnd

/-- `generateResponse`, which leaves an overly large response empty. -/
def generateResponse (resultXml : Bytes) : Bytes :=
  let body := responseBody resultXml
  let header := responseHeader body
  if header.length + body.length > intMax then [] else header ++ body

/-- The struct with `faultCode` and `faultString`. -/
def faultStruct (errorMsg : Bytes) (errorCode : Int32) : Value :=
  .struct [(faultCode, .int errorCode), (faultString, .string errorMsg)]

def faultBody [DoubleText] (errorMsg : Bytes) (errorCode : Int32) : Bytes :=
  faultBegin ++ (faultStruct errorMsg errorCode).toXml ++ faultEnd

def generateFaultResponse [DoubleText] (errorMsg : Bytes) (errorCode : Int32) : Bytes :=
  let body := faultBody errorMsg errorCode
  responseHeader body ++ body

/-- The parameters that `parseRequest` stores by index into a value that is invalid at first. -/
def paramsValue : List Value → Value
  | [] => .invalid
  | params => .array params

/-! ## Requests -/

theorem parseTag_methodName {xml methodName rest : Bytes} (hLength : xml.length ≤ intMax) (hName : 60 ∉ methodName)
    (hXml : xml = requestBegin ++ (methodName ++ (requestEndMethodName ++ rest))) :
    ∃ offset, parseTag (bytes "<methodName>") xml 0 = (methodName, offset) ∧ xml.drop offset = bytes "\r\n" ++ rest := by
  have hBegin : requestBegin = bytes "<?xml version=\"1.0\"?>\r\n<methodCall>" ++ bytes "<methodName>" := by decide
  have hEnd : requestEndMethodName = bytes "</methodName>" ++ bytes "\r\n" := by decide
  have hDrop : xml.drop 0 = bytes "<?xml version=\"1.0\"?>\r\n<methodCall>" ++
      (bytes "<methodName>" ++ (methodName ++ (bytes "</methodName>" ++ (bytes "\r\n" ++ rest)))) := by
    rw [hXml, hBegin, hEnd]
    simp only [List.append_assoc, List.drop_zero]
  have hParse := parseTag_passed (bytes "methodName>") hLength (by decide) hName hDrop
  exact ⟨_, hParse, drop_add_of_drop (drop_add_of_drop (drop_add_of_drop (drop_add_of_drop hDrop)))⟩

section

variable [DoubleText]

theorem paramsFromXml_end {xml rest : Bytes} {fuel offset : Nat} (hFuel : 0 < fuel)
    (hDrop : xml.drop offset = paramsEtag ++ rest) : paramsFromXml xml fuel offset = [] := by
  obtain ⟨fuel, rfl⟩ := Nat.exists_eq_add_of_le' hFuel
  have hNone := nextTagIs_other (bytes "param>") (bytes "/params>") hDrop (by simp [bytes, List.cons_prefix_cons])
  change nextTagIs (bytes "<param>") xml offset = none at hNone
  rw [paramsFromXml, hNone]

theorem paramsFromXml_toXml {elements : List Value} (hElements : ∀ v ∈ elements, v.Codable) {xml rest : Bytes}
    {fuel offset : Nat} (hLength : xml.length ≤ intMax) (hFuel : elements.length < fuel)
    (hDrop : xml.drop offset = elements.flatMap Client.paramToXml ++ (paramsEtag ++ rest)) :
    paramsFromXml xml fuel offset = elements := by
  induction elements generalizing fuel offset with
  | nil => exact paramsFromXml_end hFuel hDrop
  | cons v elements ih =>
    obtain ⟨fuel, rfl⟩ := Nat.exists_eq_add_of_le' (Nat.lt_of_le_of_lt (Nat.zero_le _) hFuel)
    rw [List.flatMap_cons, List.append_assoc, Client.paramToXml, List.append_assoc, List.append_assoc] at hDrop
    have hTag := nextTagIs_here (bytes "param>") hLength hDrop
    change nextTagIs (bytes "<param>") xml offset = some (offset + paramTag.length) at hTag
    have hValue := drop_add_of_drop hDrop
    have hNoBlanks : ∀ c ∈ ([] : Bytes), isspace c = true := by simp
    have hRead := fromXml_behind (hElements v List.mem_cons_self) hLength hNoBlanks hValue
    have hBehind := drop_add_of_drop hValue
    have hSkip := nextTagIs_here (bytes "/param>") hLength hBehind
    change nextTagIs (bytes "</param>") xml _ = some (_ + paramEtag.length) at hSkip
    have hTail := ih (fun w hw => hElements w (List.mem_cons_of_mem v hw)) (Nat.lt_of_succ_lt_succ hFuel)
      (drop_add_of_drop hBehind)
    rw [paramsFromXml, hTag]
    simp only [hRead, List.length_nil, Nat.add_zero, Option.map_some, Option.getD_some, skipTag, hSkip, hTail]

theorem flatMap_paramToXml_length (elements : List Value) :
    elements.length ≤ (elements.flatMap Client.paramToXml).length := by
  induction elements with
  | nil => exact Nat.le_refl _
  | cons v elements ih =>
    have hTag : 0 < paramTag.length := by decide
    rw [List.flatMap_cons, List.length_append, List.length_cons, Client.paramToXml, List.length_append,
      List.length_append]
    omega

theorem parseRequest_elements {methodName : Bytes} (hName : 60 ∉ methodName) (hNonempty : methodName ≠ [])
    {elements : List Value} (hElements : ∀ v ∈ elements, v.Codable)
    (hLength : (Client.requestBody methodName (.array elements)).length ≤ intMax) :
    parseRequest (Client.requestBody methodName (.array elements)) = (methodName, elements) := by
  have hBody : Client.requestBody methodName (.array elements) =
      requestBegin ++ (methodName ++ (requestEndMethodName ++
        (paramsTag ++ (elements.flatMap Client.paramToXml ++ (paramsEtag ++ requestEnd))))) := by
    simp only [Client.requestBody, Client.requestParams, List.append_assoc]
  generalize Client.requestBody methodName (.array elements) = xml at hBody hLength ⊢
  obtain ⟨offset, hParse, hDrop⟩ := parseTag_methodName hLength hName hBody
  have hSome : 0 < methodName.length := List.length_pos_of_ne_nil hNonempty
  have hFind := findTag_behind (bytes "params>") hLength (by decide) hDrop
  change findTag (bytes "<params>") xml offset = some (offset + (bytes "\r\n").length + paramsTag.length) at hFind
  have hParams := drop_add_of_drop (drop_add_of_drop hDrop)
  have hFuel : elements.length < xml.length := by
    have hCount := flatMap_paramToXml_length elements
    have hWhole := congrArg List.length hBody
    simp only [List.length_append] at hWhole
    omega
  have hRead := paramsFromXml_toXml hElements hLength hFuel hParams
  rw [parseRequest, hParse]
  simp only [hSome, if_true, hFind, hRead]

/-- A request within the length that the tag readers accept is read as it was meant. -/
theorem parseRequest_requestBody {methodName : Bytes} (hName : 60 ∉ methodName) (hNonempty : methodName ≠ [])
    {elements : List Value} (hElements : ∀ v ∈ elements, v.Codable)
    (hLength : (Client.requestBody methodName (.array elements)).length ≤ intMax) :
    (parseRequest (Client.requestBody methodName (.array elements))).1 = methodName ∧
      (elements ≠ [] → paramsValue (parseRequest (Client.requestBody methodName (.array elements))).2 = .array elements) := by
  rw [parseRequest_elements hName hNonempty hElements hLength]
  refine ⟨rfl, fun hSome => ?_⟩
  obtain ⟨v, elements, rfl⟩ := List.exists_cons_of_ne_nil hSome
  rfl

theorem parseRequest_overlong {methodName : Bytes} (h : intMax ≤ methodName.length) (params : Value) :
    (parseRequest (Client.requestBody methodName params)).1 = [] := by
  have hBegin : 0 < requestBegin.length := by decide
  have hLong : intMax < (Client.requestBody methodName params).length := by
    simp only [Client.requestBody, List.length_append]
    omega
  simp only [parseRequest, parseTag, if_pos hLong, List.length_nil, Nat.lt_irrefl, if_false]

end

theorem parseRequest_requestBody_sample :
    (@parseRequest noDoubles (@Client.requestBody noDoubles (bytes "m") (.array [.int 7, .base64 [1, 2]]))).1 = bytes "m" ∧
      ([.int 7, .base64 [1, 2]] ≠ ([] : List Value) →
        paramsValue (@parseRequest noDoubles (@Client.requestBody noDoubles (bytes "m") (.array [.int 7, .base64 [1, 2]]))).2 =
          .array [.int 7, .base64 [1, 2]]) := by
  refine @parseRequest_requestBody noDoubles (bytes "m") (by decide) (by decide) [.int 7, .base64 [1, 2]] ?_ (by decide +kernel)
  simp only [List.mem_cons, List.not_mem_nil, or_false, forall_eq_or_imp, forall_eq]
  exact ⟨@Value.Codable.int noDoubles 7, @Value.Codable.base64 noDoubles [1, 2]⟩

/-- The empty array of parameters arrives as an invalid value, and a name of `__INT_MAX__` letters does not arrive. -/
theorem parseRequest_empty :
    paramsValue (@parseRequest noDoubles (@Client.requestBody noDoubles (bytes "m") (.array []))).2 = .invalid ∧
      (@parseRequest noDoubles (@Client.requestBody noDoubles (List.replicate intMax 109) (.array [.int 7]))).1 ≠
        List.replicate intMax 109 := by
  constructor
  · have hNone : (@parseRequest noDoubles (@Client.requestBody noDoubles (bytes "m") (.array []))).2 = [] := by
      rw [← List.isEmpty_iff]
      decide +kernel
    rw [hNone]
    rfl
  · rw [@parseRequest_overlong noDoubles _ (by rw [List.length_replicate])]
    intro hEq
    have hLength := congrArg List.length hEq
    rw [List.length_replicate] at hLength
    exact absurd hLength (by decide)

/-! ## Responses -/

theorem responseValue_result {response rest : Bytes} (hLength : response.length ≤ intMax)
    (hResponse : response = responseBegin ++ rest) :
    ∃ offset start, findTag methodResponseTag response 0 = some offset ∧
      Client.responseValue response offset = some (start, false) ∧ response.drop start = bytes "\r\n\t" ++ rest := by
  have hBegin : responseBegin = bytes "<?xml version=\"1.0\"?>\r\n" ++
      (methodResponseTag ++ (paramsTag ++ (paramTag ++ bytes "\r\n\t"))) := by decide
  have hDrop : response.drop 0 = bytes "<?xml version=\"1.0\"?>\r\n" ++
      (methodResponseTag ++ (paramsTag ++ (paramTag ++ (bytes "\r\n\t" ++ rest)))) := by
    rw [hResponse, hBegin]
    simp only [List.append_assoc, List.drop_zero]
  have hFind := findTag_passed methodResponseTag hLength (by decide) (by decide) hDrop
  have hInner := drop_add_of_drop (drop_add_of_drop hDrop)
  have hParams := nextTagIs_here (bytes "params>") hLength hInner
  change nextTagIs paramsTag response _ = some (_ + paramsTag.length) at hParams
  have hParam := nextTagIs_here (bytes "param>") hLength (drop_add_of_drop hInner)
  change nextTagIs paramTag response _ = some (_ + paramTag.length) at hParam
  refine ⟨_, _, hFind, ?_, drop_add_of_drop (drop_add_of_drop hInner)⟩
  simp only [Client.responseValue, hParams, hParam]

theorem responseValue_fault {response rest : Bytes} (hLength : response.length ≤ intMax)
    (hResponse : response = faultBegin ++ rest) :
    ∃ offset start, findTag methodResponseTag response 0 = some offset ∧
      Client.responseValue response offset = some (start, true) ∧ response.drop start = bytes "\r\n\t" ++ rest := by
  have hBegin : faultBegin = bytes "<?xml version=\"1.0\"?>\r\n" ++
      (methodResponseTag ++ (faultTag ++ bytes "\r\n\t")) := by decide
  have hDrop : response.drop 0 = bytes "<?xml version=\"1.0\"?>\r\n" ++
      (methodResponseTag ++ (faultTag ++ (bytes "\r\n\t" ++ rest))) := by
    rw [hResponse, hBegin]
    simp only [List.append_assoc, List.drop_zero]
  have hFind := findTag_passed methodResponseTag hLength (by decide) (by decide) hDrop
  have hInner := drop_add_of_drop (drop_add_of_drop hDrop)
  have hParams := nextTagIs_other (bytes "params>") (bytes "fault>") hInner (by simp [bytes, List.cons_prefix_cons])
  change nextTagIs paramsTag response _ = none at hParams
  have hFault := nextTagIs_here (bytes "fault>") hLength hInner
  change nextTagIs faultTag response _ = some (_ + faultTag.length) at hFault
  refine ⟨_, _, hFind, ?_, drop_add_of_drop hInner⟩
  simp only [Client.responseValue, hParams, hFault, Option.map_some]

section

variable [DoubleText]

theorem faultStruct_codable (errorMsg : Bytes) (errorCode : Int32) : (faultStruct errorMsg errorCode).Codable := by
  refine .struct ?_ ?_ ?_
  · unfold KeysSorted
    simp only [List.pairwise_cons, List.mem_singleton, forall_eq, List.not_mem_nil, false_implies, implies_true,
      List.Pairwise.nil, and_self, and_true]
    decide
  · simp only [List.mem_cons, List.not_mem_nil, or_false, forall_eq_or_imp, forall_eq, PlainName]
    exact ⟨List.all_iff_forall_prop.mp (by decide), List.all_iff_forall_prop.mp (by decide)⟩
  · simp only [List.mem_cons, List.not_mem_nil, or_false, forall_eq_or_imp, forall_eq]
    exact ⟨.int errorCode, .string errorMsg⟩

theorem parseResponse_overlong {c : Client} (h : intMax < c.response.length) : c.parseResponse.1 = none := by
  have hNone : findTag methodResponseTag c.response 0 = none := by rw [findTag, if_pos h]
  simp only [Client.parseResponse, hNone]

theorem responseBody_string_length (s : Bytes) : s.length < (responseBody (Value.string s).toXml).length := by
  have hEncode := xmlEncode_length_le s
  have hBegin : 0 < responseBegin.length := by decide
  simp only [responseBody, Value.toXml, stringToXml, List.length_append]
  omega

end

end XcRos.Rpc
