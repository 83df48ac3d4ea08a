import Mathlib.Data.List.TakeWhile
import Ehdb.Slm.Gate

/-! What a proposal that passes the gate can reach: no credential, and over `http` nothing but reads
from the hosts of the policy, provided that it says plainly what it calls. -/

namespace Ehdb.Theorems

open Slm

variable {spec : Json} {ctx : WorkingContext} {policy : Policy} {validate : Json → Bool}
  {off : Bool}

def Decision.passes : Decision → Bool
  | .admitted _ | .awaitingApproval _ => true
  | _ => false

theorem passes_iff : Decision.passes (admitProposal spec ctx policy validate off) ↔
    off = false ∧ (spec matches .object _) ∧ ctx.budget.exhausted = none ∧ validate spec ∧
      credentialReach policy.allowedKeychainAliases spec = none ∧ ∃ kind,
        toolKindOf spec = some kind ∧
        kind ∉ policy.deniedToolKinds ∧
        (kind = "http" → httpReadShaped spec policy.httpAllowedHosts) ∧
        (kind ∈ policy.allowedToolKinds ∨ policy.humanGateRequired) := by
  unfold admitProposal
  repeat' split
  all_goals simp_all [Decision.passes]

/-- A field of a value or of a part of it. -/
inductive FieldIn (name : String) (value : Json) : Json → Prop
  | here {fields} : (name, value) ∈ fields → FieldIn name value (.object fields)
  | field {fields key part} : (key, part) ∈ fields → FieldIn name value part →
      FieldIn name value (.object fields)
  | item {items part} : part ∈ items → FieldIn name value part → FieldIn name value (.array items)

/-- A field that a generated step may have. -/
def Harmless (aliases : List String) (name : String) (value : Json) : Prop :=
  toAsciiLowercase name ≠ "auth" ∧ (toAsciiLowercase name ∈ ["credential", "keychain", "secret"] →
    value.asStr.getD "" ∈ aliases)

/-- No field, however deep, reaches for a credential. -/
def Sealed (aliases : List String) (json : Json) : Prop :=
  ∀ name value, FieldIn name value json → Harmless aliases name value

section

variable {aliases : List String}

theorem reachOfFields_eq_none {fields : List (String × Json)}
    (each : ∀ f ∈ fields, credentialReach aliases f.2 = none ↔ Sealed aliases f.2) :
    reachOfFields aliases fields = none ↔
      ∀ f ∈ fields, Harmless aliases f.1 f.2 ∧ Sealed aliases f.2 := by
  induction fields with
  | nil => simp [reachOfFields]
  | cons f rest ih =>
    rw [List.forall_mem_cons] at each ⊢
    rw [← ih each.2, ← each.1]
    simp only [reachOfFields, Harmless]
    split
    · simp_all
    · split
      · simp_all
      · rw [Option.or_eq_none_iff]
        tauto

theorem reachOfItems_eq_none {items : List Json}
    (each : ∀ item ∈ items, credentialReach aliases item = none ↔ Sealed aliases item) :
    reachOfItems aliases items = none ↔ ∀ item ∈ items, Sealed aliases item := by
  induction items with
  | nil => simp [reachOfItems]
  | cons item rest ih =>
    rw [List.forall_mem_cons] at each ⊢
    rw [reachOfItems, Option.or_eq_none_iff, each.1, ih each.2]

theorem credentialReach_eq_none (json : Json) :
    credentialReach aliases json = none ↔ Sealed aliases json := by
  match json with
  | .object fields =>
    have each : ∀ f ∈ fields, credentialReach aliases f.2 = none ↔ Sealed aliases f.2 :=
      fun f mem => credentialReach_eq_none f.2
    rw [credentialReach, reachOfFields_eq_none each]
    refine ⟨fun ok name value field => ?_, fun ok f mem => ?_⟩
    · cases field with
      | here mem => exact (ok _ mem).1
      | field mem inside => exact (ok _ mem).2 name value inside
    · exact ⟨ok f.1 f.2 (.here mem), fun name value inside => ok name value (.field mem inside)⟩
  | .array items =>
    have each : ∀ item ∈ items, credentialReach aliases item = none ↔ Sealed aliases item :=
      fun item mem => credentialReach_eq_none item
    rw [credentialReach, reachOfItems_eq_none each]
    refine ⟨fun ok name value field => ?_, fun ok part mem name value inside => ?_⟩
    · cases field with
      | item mem inside => exact ok _ mem name value inside
    · exact ok name value (.item mem inside)
  | .null | .bool _ | .number _ | .string _ =>
    refine iff_of_true rfl fun name value field => ?_
    cases field
termination_by sizeOf json
decreasing_by
  · have smaller := List.sizeOf_lt_of_mem mem
    cases f
    simp only [Prod.mk.sizeOf_spec, Json.object.sizeOf_spec] at smaller ⊢
    omega
  · have smaller := List.sizeOf_lt_of_mem mem
    simp only [Json.array.sizeOf_spec]
    omega

end

/-- Every list that allows something is in the list of the other policy, and what is denied there is
denied here. -/
structure Tighter (policy policy' : Policy) : Prop where
  kinds : policy.allowedToolKinds ⊆ policy'.allowedToolKinds
  denied : policy'.deniedToolKinds ⊆ policy.deniedToolKinds
  hosts : policy.httpAllowedHosts ⊆ policy'.httpAllowedHosts
  aliases : policy.allowedKeychainAliases ⊆ policy'.allowedKeychainAliases
  human : policy.humanGateRequired → policy'.humanGateRequired

/-- A tighter policy lets nothing pass that the other one stops, and what passes has no field at any
depth that reaches for a credential. -/
theorem tighter_policy_passes_less {policy' : Policy} (tighter : Tighter policy policy')
    (passes : Decision.passes (admitProposal spec ctx policy validate off)) :
    Decision.passes (admitProposal spec ctx policy' validate off) ∧
      Sealed policy.allowedKeychainAliases spec := by
  rw [passes_iff, credentialReach_eq_none] at passes ⊢
  obtain ⟨on, isObject, left, valid, clean, kind, is, allowed, shaped, admits⟩ := passes
  refine ⟨⟨on, isObject, left, valid, fun name value inside => ?_, kind, is,
    fun denied => allowed (tighter.denied denied), fun http => ?_,
    admits.imp (tighter.kinds ·) tighter.human⟩, clean⟩
  · exact ⟨(clean name value inside).1, fun known =>
      tighter.aliases ((clean name value inside).2 known)⟩
  · have shaped := shaped http
    unfold httpReadShaped at shaped ⊢
    split
    · rfl
    · rename_i tool found
      simp only [found, Bool.and_eq_true, Option.any_eq_true, decide_eq_true_eq] at shaped ⊢
      obtain ⟨reads, url, is, host⟩ := shaped
      exact ⟨reads, url, is, tighter.hosts host⟩

def goodHost : Policy := ⟨["http"], [], ["good.com"], false, []⟩

def unspent : WorkingContext := ⟨[], ⟨4, 4, 4, 0, 0, 0, none, by decide⟩⟩

def readable : Json :=
  .object [("tool", .object [("kind", .string "http"), ("url", .string "http://good.com/x")])]

theorem tighter_policy_passes_readable :
    Decision.passes (admitProposal readable unspent { goodHost with humanGateRequired := true }
      (fun _ => true) false) ∧ Sealed [] readable :=
  @tighter_policy_passes_less readable unspent goodHost (fun _ => true) false _
    ⟨fun _ => id, fun _ => id, fun _ => id, fun _ => id, fun _ => rfl⟩ (by decide)

end Ehdb.Theorems
