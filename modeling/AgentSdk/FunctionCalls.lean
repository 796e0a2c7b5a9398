import AgentSdk.Lib.Json
import AgentSdk.Lib.Scan
import Mathlib.Data.List.DropRight
/-!
# Function calls as text

`fn_call_converter`: for a model without native tool calls the assistant's tool
call is written into its text, and the text of a response is parsed back. Texts
are lists of characters. The errors carry what their messages name.
-/

namespace AgentSdk
open Lib

/-! ## Python's strings -/

/-- `int(text)`, for the decimal digits of ASCII. -/
def pyInt (t : Text) : Option Int :=
  let (sign, u) := scanSign ['+', '-'] (strip t)
  let groups := u.splitOn '_'
  if groups.all fun g => !g.isEmpty && g.all Char.isDigit then
    let n := Nat.ofDigitChars 10 groups.flatten 0
    some (if sign = ['-'] then -n else n)
  else none

/-- What `==` does with a float: among floats, and with an integer. -/
class PyFloat (F : Type) extends JsonFloat F where
  eq : F → F → Bool
  eqInt : F → Int → Bool

section
variable {F : Type} [PyFloat F]

/-- `True` and `False` are integers. -/
def asInt : Json F → Option Int
  | .bool b => some (if b then 1 else 0)
  | .int i => some i
  | _ => none

def eqNumber (v w : Json F) : Bool :=
  match v, w with
  | .float x, .float y => PyFloat.eq x y
  | .float x, w => (asInt w).any (PyFloat.eqInt x)
  | v, .float y => (asInt v).any (PyFloat.eqInt y)
  | v, w => (asInt v).isSome && asInt v = asInt w

mutual

/-- `==`. -/
def pyEq : Json F → Json F → Bool
  | .arr xs, w =>
    match w with
    | .arr ys => pyEqElems xs ys
    | _ => false
  | .obj kvs, w =>
    match w with
    | .obj kvs' => kvs.length = kvs'.length && pyEqFields kvs kvs'
    | _ => false
  | .str s, w =>
    match w with
    | .str s' => s = s'
    | _ => false
  | .null, w =>
    match w with
    | .null => true
    | _ => false
  | v, w => eqNumber v w

def pyEqElems : List (Json F) → List (Json F) → Bool
  | [], ys => ys.isEmpty
  | x :: xs, ys =>
    match ys with
    | [] => false
    | y :: ys => pyEq x y && pyEqElems xs ys

def pyEqFields : List (Text × Json F) → List (Text × Json F) → Bool
  | [], _ => true
  | (k, v) :: kvs, kvs' =>
    match kvs'.lookup k with
    | some w => pyEq v w && pyEqFields kvs kvs'
    | none => false

end

/-- `str(value)`. -/
def pyStr : Json F → Text
  | .null => "None".toList
  | .bool b => if b then "True".toList else "False".toList
  | .int i => intText i
  | .float x =>
    let t := JsonFloat.token x
    if t = "NaN".toList then "nan".toList
    else if t = "Infinity".toList then "inf".toList
    else if t = "-Infinity".toList then "-inf".toList
    else t
  | .str s => s
  -- Lists and dicts never get here: `json.dumps` renders them.
  | v => dumps v

end

/-! ## Tools and messages -/

/-- The `type` keyword of a schema: one type or a list of them. -/
inductive SchemaType where
  | name (t : Text)
  | union (ts : List Text)
deriving DecidableEq

/-- What the parser reads of a property's schema. -/
structure PropertySchema (F : Type) where
  type : Option SchemaType := none
  enum : Option (List (Json F)) := none

structure FunctionTool (F : Type) where
  name : Text
  properties : List (Text × PropertySchema F) := []
  required : List Text := []

structure FunctionChunk where
  name : Text
  arguments : Text
deriving DecidableEq

/-- A tool call as a dict; `none` is a missing key. -/
structure ToolCallDict where
  id : Option Text
  type : Option Text
  function : Option FunctionChunk
deriving DecidableEq

inductive ContentPart where
  | text (t : Text)
  | other (type : Text)
deriving DecidableEq

inductive Content where
  | text (t : Text)
  | parts (ps : List ContentPart)
deriving DecidableEq

/-- `message.get("content") or ""`. -/
def contentOr : Option Content → Content
  | none | some (.parts []) => .text []
  | some c => c

structure AssistantMessage where
  content : Option Content
  toolCalls : Option (List ToolCallDict) := none

inductive FnCallError where
  | missingKey (key : Text)
  | notFunction (type : Text)
  | badArguments (arguments : Text)
  | argumentsNotDict
  | toolCallCount (n : Nat)
  | callNotLast
  | unknownFunction (name : Text)
  | notAllowed (param fn : Text)
  | notInteger (param : Text)
  | notArray (param : Text)
  | notInEnum (param : Text)
  | missingParams (fn : Text) (params : List Text)
deriving DecidableEq

/-! ## Writing a call -/

def fnOpen : Text := "<function=".toList

def fnClose : Text := "</function>".toList

def paramOpen : Text := "<parameter=".toList

def paramClose : Text := "</parameter>".toList

def thinkEnd : Text := "</think>".toList

def toolCallOpen : Text := "<tool_call>".toList

def toolCallClose : Text := "</tool_call>".toList

section
variable {F : Type} [PyFloat F]

/-- A value as it stands between its tags. -/
def renderValue : Json F → Text
  | .str s => if '\n' ∈ s then '\n' :: (s ++ ['\n']) else s
  | .arr xs => dumps (.arr xs)
  | .obj kvs => dumps (.obj kvs)
  | v => pyStr v

def renderParam (p : Text × Json F) : Text := paramOpen ++ p.1 ++ '>' :: (renderValue p.2 ++ paramClose)

def renderCall (name : Text) (args : List (Text × Json F)) : Text :=
  List.intercalate ['\n'] ([fnOpen ++ name ++ ['>']] ++ args.map renderParam ++ [fnClose])

variable (F) in
/-- `convert_tool_call_to_string`. -/
def convertToolCallToString (tc : ToolCallDict) : Except FnCallError Text :=
  match tc.function, tc.id, tc.type with
  | none, _, _ => .error (.missingKey "function".toList)
  | some _, none, _ => .error (.missingKey "id".toList)
  | some _, some _, none => .error (.missingKey "type".toList)
  | some fn, some _, some type =>
    if type ≠ "function".toList then .error (.notFunction type)
    else
      match loads (F := F) fn.arguments with
      | none => .error (.badArguments fn.arguments)
      | some (.obj args) => .ok (renderCall fn.name args)
      | some _ => .error .argumentsNotDict

/-- The text of a call behind the content that came with it. -/
def Content.withCall (content : Content) (call : Text) : Content :=
  match content with
  | .text t => .text (lstrip (t ++ '\n' :: '\n' :: call))
  | .parts ps =>
    match ps.getLast? with
    | some (.text t) => .parts (ps.dropLast ++ [.text (lstrip (t ++ '\n' :: '\n' :: call))])
    | _ => .parts (ps ++ [.text call])

variable (F) in
/-- `_convert_assistant_to_non_fncall`. -/
def convertAssistantToNonFncall (m : AssistantMessage) : Except FnCallError Content :=
  let content := contentOr m.content
  match m.toolCalls with
  | none => .ok content
  | some [tc] => (convertToolCallToString F tc).map content.withCall
  | some tcs => .error (.toolCallCount tcs.length)

end

/-! ## Cleaning up a response -/

def literal (word : Text) : Matcher Char Unit := fun t => if word <+: t then some (word.length, ()) else none

/-- `tag\s*(?=<function=)`, removed. -/
def tagBeforeCall (tag : Text) : Matcher Char Text := fun t => do
  let u ← t.dropPrefix? tag
  let v := lstrip u
  if fnOpen <+: v then some (t.length - v.length, []) else none

/-- `(?<=</function>)\s*</tool_call>`, removed; the match here takes the text
that is looked behind at along. -/
def tagAfterCall : Matcher Char Text := fun t => do
  let u ← t.dropPrefix? fnClose
  let v ← (lstrip u).dropPrefix? toolCallClose
  some (t.length - v.length, fnClose)

/-- `_preprocess_model_output`. -/
def preprocessModelOutput (t : Text) : Text :=
  subAll tagAfterCall 0 (subAll (tagBeforeCall toolCallOpen) 0 (subAll (tagBeforeCall thinkEnd) 0 t))

/-- `_fix_stopword`. -/
def fixStopword (t : Text) : Text :=
  let t := preprocessModelOutput t
  if (findAll (literal fnOpen) 0 t).length = 1 then
    if "</".toList <:+ t then rstrip t ++ "function>".toList
    else if ¬ fnClose <:+ rstrip t then t ++ '\n' :: fnClose
    else t
  else t

def isWord (c : Char) : Bool := c.isAlphanum || c = '_'

/-- `<parameter=([a-zA-Z0-9_]+)=([^<]*)</parameter>` and its replacement. -/
def malformedParam : Matcher Char Text := fun t => do
  let u ← t.dropPrefix? paramOpen
  let name := u.takeWhile isWord
  if name = [] then none
  else
    let v ← (u.dropWhile isWord).dropPrefix? ['=']
    let value := v.takeWhile (· ≠ '<')
    let rest ← (v.dropWhile (· ≠ '<')).dropPrefix? paramClose
    some (t.length - rest.length, paramOpen ++ name ++ '>' :: (value ++ paramClose))

/-- `_normalize_parameter_tags`. -/
def normalizeParameterTags (body : Text) : Text := subAll malformedParam 0 body

/-! ## Parsing a call -/

/-- `opening([^>]+)>(.*?)closing`: the name and the body. -/
def tagged (opening closing : Text) (optional : Text) : Matcher Char (Text × Text) := fun t => do
  let u ← t.dropPrefix? opening
  let name := u.takeWhile (· ≠ '>')
  if name = [] then none
  else
    let v ← (u.dropWhile (· ≠ '>')).dropPrefix? ['>']
    let (body, rest) ← untilFirst closing ((v.dropPrefix? optional).getD v)
    some (t.length - rest.length, (name, body))

/-- `FN_REGEX_PATTERN`. -/
def fnMatch : Matcher Char (Text × Text) := tagged fnOpen fnClose ['\n']

/-- `FN_PARAM_REGEX_PATTERN`. -/
def paramMatch : Matcher Char (Text × Text) := tagged paramOpen paramClose []

/-- `TOOL_NAME_ALIASES`. -/
def toolNameAliases : List (Text × Text) :=
  [("str_replace_editor".toList, "file_editor".toList), ("bash".toList, "terminal".toList),
    ("execute_bash".toList, "terminal".toList), ("str_replace".toList, "file_editor".toList)]

def securityRisk : Text := "security_risk".toList

def ContentPart.hasCall : ContentPart → Bool
  | .text t => (search fnMatch t).isSome
  | .other _ => false

/-- A list of parts with its last text fixed, and the match in it. -/
def fixLastPart (ps : List ContentPart) : List ContentPart × Option (Text × Text) :=
  match ps.getLast? with
  | some (.text t) => (ps.dropLast ++ [.text (fixStopword t)], search fnMatch (fixStopword t))
  | _ => (ps, none)

/-- `_find_function_match`. -/
def findFunctionMatch : Content → Except FnCallError (Content × Option (Text × Text))
  | .text t => .ok (.text (fixStopword t), search fnMatch (fixStopword t))
  | .parts ps =>
    let (ps, found) := fixLastPart ps
    if ps.any ContentPart.hasCall && found.isNone then .error .callNotLast else .ok (.parts ps, found)

/-- What stands before the first call of a text. -/
def beforeCall (t : Text) : Text := strip (((untilFirst fnOpen t).map Prod.fst).getD t)

/-- `_strip_function_call_from_content`. -/
def Content.stripCall : Content → Content
  | .text t => .text (beforeCall t)
  | .parts ps =>
    match ps.getLast? with
    | some (.text t) => .parts (ps.dropLast ++ [.text (beforeCall t)])
    | _ => .parts ps

section
variable {F : Type}

/-- `_find_tool`. -/
def findTool (tools : List (FunctionTool F)) (name : Text) : Option (FunctionTool F) := tools.find? (·.name = name)

/-- `_resolve_tool_name`. -/
def resolveToolName (tools : List (FunctionTool F)) (name : Text) : Except FnCallError (Text × FunctionTool F) :=
  match findTool tools name with
  | some tool => .ok (name, tool)
  | none =>
    let name := (toolNameAliases.lookup name).getD name
    match findTool tools name with
    | some tool => .ok (name, tool)
    | none => .error (.unknownFunction name)

variable [PyFloat F]

/-- A parameter's text as its declared type reads it. -/
def convertParam (prop : PropertySchema F) (name value : Text) : Except FnCallError (Json F) :=
  if prop.type = some (.name "integer".toList) then
    match pyInt value with
    | some i => .ok (.int i)
    | none => .error (.notInteger name)
  else if prop.type = some (.name "array".toList) then
    match loads value with
    | some v => .ok v
    | none => .error (.notArray name)
  else .ok (.str value)

def FunctionTool.property (tool : FunctionTool F) (name : Text) : PropertySchema F :=
  (tool.properties.lookup name).getD {}

/-- One round of the loop of `_extract_and_validate_params`. -/
def extractParam (tool : FunctionTool F) (fnName : Text) (params : List (Text × Json F)) (p : Text × Text) :
    Except FnCallError (List (Text × Json F)) :=
  if tool.properties ≠ [] ∧ p.1 ∉ tool.properties.map Prod.fst ∧ p.1 ≠ securityRisk then
    .error (.notAllowed p.1 fnName)
  else do
    let prop := tool.property p.1
    let value ← convertParam prop p.1 (strip p.2)
    if prop.enum.all fun values => values.any (pyEq value) then return dictSet params p.1 value
    else throw (.notInEnum p.1)

/-- `_extract_and_validate_params`. -/
def extractAndValidateParams (tool : FunctionTool F) (found : List (Text × Text)) (fnName : Text) :
    Except FnCallError (List (Text × Json F)) := do
  let params ← found.foldlM (extractParam tool fnName) []
  let missing := tool.required.filter fun r => r ∉ params.map Prod.fst ∧ r ≠ securityRisk
  if missing = [] then return params else throw (.missingParams fnName missing)

end

/-- `toolu_{counter:02d}`. -/
def emulatedId (counter : Nat) : Text := "toolu_".toList ++ (Nat.toDigits 10 counter).leftpad 2 '0'

/-- What `_convert_assistant_to_fncall` makes of a message. -/
inductive ParsedMessage where
  | unchanged
  | call (content : Content) (id : Text) (function : FunctionChunk)
deriving DecidableEq

section
variable {F : Type} [PyFloat F]

/-- `_convert_assistant_to_fncall`, with the counter behind it. -/
def convertAssistantToFncall (content : Option Content) (tools : List (FunctionTool F)) (counter : Nat) :
    Except FnCallError (ParsedMessage × Nat) := do
  let (content, fnMatched) ← findFunctionMatch (contentOr content)
  match fnMatched with
  | none => return (.unchanged, counter)
  | some (fnName, body) =>
    let (fnName, tool) ← resolveToolName tools fnName
    let params ← extractAndValidateParams tool (findAll paramMatch 0 (normalizeParameterTags body)) fnName
    return (.call content.stripCall (emulatedId counter) ⟨fnName, dumps (.obj params)⟩, counter + 1)

/-- A message written out and parsed back. -/
def convertRoundTrip (tools : List (FunctionTool F)) (m : AssistantMessage) (counter : Nat) :
    Except FnCallError (ParsedMessage × Nat) := do
  let content ← convertAssistantToNonFncall F m
  convertAssistantToFncall (some content) tools counter

end

end AgentSdk
