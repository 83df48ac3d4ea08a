import Ehdb.ProofKit.StableSort
import Ehdb.Reference.EventLog

/-! `fold` makes the working context of an execution from its events, and `admit` decides on a
proposal in it. Of the context there is what `admit` goes by, and a payload is what it decodes to.
`admit` is a word of Lean; here it is `admitProposal`. -/

namespace Ehdb.Slm

open ProofKit
open Reference (strTrim)

def u32Max : Nat := 2 ^ 32 - 1

/-- `saturating_add(1)` of a `u32`. -/
def saturatingSucc (n : Nat) : Nat := if n < u32Max then n + 1 else n

inductive SlmContextEvent where
  | turnPrompted (executionId : String) (turn : Nat)
  | turnCompleted (executionId : String) (turn : Nat)
  | turnDegraded (executionId : String) (turn : Nat)
  | stepProposed (executionId : String)
  | stepAdmitted (executionId : String) (depth : Nat)
  | stepRejected (executionId : String)
  | contextSummarised (executionId : String)
  | unknown

def SlmContextEvent.owner : SlmContextEvent → Option String
  | .turnPrompted id _ | .turnCompleted id _ | .turnDegraded id _ | .stepProposed id
  | .stepAdmitted id _ | .stepRejected id | .contextSummarised id => some id
  | .unknown => none

inductive BudgetLimit where
  | generatedSteps | depth | turns

structure Budget where
  maxGeneratedSteps : Nat
  maxDepth : Nat
  maxTurns : Nat
  stepsAdmitted : Nat
  maxDepthSeen : Nat
  turnsUsed : Nat
  exhausted : Option BudgetLimit
  fits : maxGeneratedSteps ≤ u32Max

def Budget.recomputeExhaustion (b : Budget) : Budget :=
  { b with
    exhausted :=
      if b.stepsAdmitted ≥ b.maxGeneratedSteps then some .generatedSteps
      else if b.maxDepthSeen ≥ b.maxDepth then some .depth
      else if b.turnsUsed ≥ b.maxTurns then some .turns
      else none }

structure WorkingContext where
  turns : List Nat
  budget : Budget

/-- Find or create the slot of a turn. -/
def turnSlot (turns : List Nat) (turn : Nat) : List Nat :=
  if turn ∈ turns then turns else turns ++ [turn]

def WorkingContext.apply (ctx : WorkingContext) : SlmContextEvent → WorkingContext
  | .turnPrompted _ turn | .turnCompleted _ turn | .turnDegraded _ turn =>
    { ctx with turns := turnSlot ctx.turns turn }
  | .stepAdmitted _ depth =>
    { ctx with
      budget := { ctx.budget with
        stepsAdmitted := saturatingSucc ctx.budget.stepsAdmitted
        maxDepthSeen := max ctx.budget.maxDepthSeen depth } }
  | _ => ctx

inductive FoldError where
  | unsortedInput (index prev got : Nat)
  | foreignExecution (index : Nat) (expected got : String)
  | malformed (index : Nat) (detail : String)

abbrev EventLog := List (Nat × Except String SlmContextEvent)

def foldEvents (executionId : String) (upToSeq index : Nat) (prev : Option Nat)
    (ctx : WorkingContext) : EventLog → Except FoldError WorkingContext
  | [] => .ok ctx
  | (seq, payload) :: rest =>
    if prev.any (seq ≤ ·) then .error (.unsortedInput index (prev.getD 0) seq)
    else if seq > upToSeq then foldEvents executionId upToSeq (index + 1) (some seq) ctx rest
    else
      match payload with
      | .error detail => .error (.malformed index detail)
      | .ok event =>
        if event.owner.any (· ≠ executionId) then
          .error (.foreignExecution index executionId (event.owner.getD ""))
        else foldEvents executionId upToSeq (index + 1) (some seq) (ctx.apply event) rest

def fold (executionId : String) (events : EventLog) (upToSeq : Nat) (budget : Budget) :
    Except FoldError WorkingContext := do
  let ctx ← foldEvents executionId upToSeq 0 none ⟨[], budget⟩ events
  let turns := sortByKey id ctx.turns
  return ⟨turns, { ctx.budget with turnsUsed := turns.length % 2 ^ 32 }.recomputeExhaustion⟩

inductive Json where
  | null
  | bool (value : Bool)
  | number (text : String)
  | string (text : String)
  | array (items : List Json)
  | object (fields : List (String × Json))

def Json.get (key : String) : Json → Option Json
  | .object fields => fields.lookup key
  | _ => none

def Json.asStr : Json → Option String
  | .string text => some text
  | _ => none

def Json.isNull : Json → Bool
  | .null => true
  | _ => false

def toAsciiLowercase (text : String) : String := .ofList (text.toList.map Char.toLower)

inductive RejectionRule where
  | malformed | budgetExhausted | depthExceeded | schemaInvalid | credentialReach
  | keychainAliasNotAllowed | missingToolKind | toolKindDenied | httpNotReadShaped
  | toolKindNotAllowed

structure Policy where
  allowedToolKinds : List String
  deniedToolKinds : List String
  httpAllowedHosts : List String
  humanGateRequired : Bool
  allowedKeychainAliases : List String

inductive Decision where
  | notConsidered
  | rejected (rule : RejectionRule)
  | awaitingApproval (toolKind : String)
  | admitted (depth : Nat)

def Decision.isAdmitted : Decision → Bool
  | .admitted _ => true
  | _ => false

mutual

/-- What the first field that reaches for a credential is: an `auth` block, or else an alias that
is not allowed. -/
def credentialReach (aliases : List String) : Json → Option Bool
  | .object fields => reachOfFields aliases fields
  | .array items => reachOfItems aliases items
  | _ => none

def reachOfFields (aliases : List String) : List (String × Json) → Option Bool
  | [] => none
  | (name, value) :: rest =>
    let key := toAsciiLowercase name
    if key = "auth" then some true
    else if key ∈ ["credential", "keychain", "secret"] ∧
      value.asStr.getD "" ∉ aliases then some false
    else (credentialReach aliases value).or (reachOfFields aliases rest)

def reachOfItems (aliases : List String) : List Json → Option Bool
  | [] => none
  | item :: rest => (credentialReach aliases item).or (reachOfItems aliases rest)

end

/-- The text before the first `sep`, and what follows it if there is one. -/
def cutAt (sep : List Char) : List Char → List Char × Option (List Char)
  | [] => ([], none)
  | c :: cs =>
    if sep.isPrefixOf (c :: cs) then ([], some ((c :: cs).drop sep.length))
    else ((c :: (cutAt sep cs).1), (cutAt sep cs).2)

def hostOf (url : String) : String :=
  let scheme := "://".toList
  let rest := ((cutAt scheme url.toList).2.map fun rest => (cutAt scheme rest).1).getD url.toList
  let hostPort := ((rest.takeWhile (· ≠ '/')).reverse.takeWhile (· ≠ '@')).reverse
  .ofList ((hostPort.takeWhile (· ≠ ':')).map Char.toLower)

def isReadMethod (method : String) : Bool :=
  String.ofList ((strTrim method).toList.map Char.toUpper) ∈ ["GET", "HEAD"]

/-- `http_not_read_shaped` finds nothing. An empty list of hosts has no host. -/
def httpReadShaped (spec : Json) (hosts : List String) : Bool :=
  match spec.get "tool" with
  | none => true
  | some tool =>
    ["body", "json", "form"].all (fun field => (tool.get field).all Json.isNull) &&
    isReadMethod (((tool.get "method").bind Json.asStr).getD "GET") &&
    ((tool.get "url").bind Json.asStr).any (hostOf · ∈ hosts)

def toolKindOf (spec : Json) : Option String :=
  (((spec.get "tool").bind (Json.get "kind")).or (spec.get "kind")).bind Json.asStr
    |>.map fun kind => toAsciiLowercase (strTrim kind)

/-- `off` says that the mode is `Off`; the other two modes do the same. -/
def admitProposal (spec : Json) (ctx : WorkingContext) (policy : Policy) (validate : Json → Bool)
    (off : Bool) : Decision :=
  if off then .notConsidered
  else if !(spec matches .object _) then .rejected .malformed
  else
    match ctx.budget.exhausted with
    | some .depth => .rejected .depthExceeded
    | some _ => .rejected .budgetExhausted
    | none =>
      if !validate spec then .rejected .schemaInvalid
      else
        match credentialReach policy.allowedKeychainAliases spec, toolKindOf spec with
        | some true, _ => .rejected .credentialReach
        | some false, _ => .rejected .keychainAliasNotAllowed
        | none, none => .rejected .missingToolKind
        | none, some kind =>
          if kind ∈ policy.deniedToolKinds then .rejected .toolKindDenied
          else if kind = "http" ∧ ¬httpReadShaped spec policy.httpAllowedHosts then
            .rejected .httpNotReadShaped
          else if kind ∈ policy.allowedToolKinds then
            .admitted (saturatingSucc ctx.budget.maxDepthSeen)
          else if policy.humanGateRequired then .awaitingApproval kind
          else .rejected .toolKindNotAllowed

end Ehdb.Slm
