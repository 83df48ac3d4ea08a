import Ehdb.Feed.Group
import Ehdb.L0.Run

/-! Which pools a worker that subscribes to `commands.<pool>.>` is given commands of. -/

namespace Ehdb.Theorems

open Feed List
open L0 (Platform EventRecord)
open SubjectFilter (matchesFrom parse)

def poolFilter (pool : String) : SubjectFilter := .parse ("commands." ++ pool ++ ".>")

/-- A command is given to the workers of its own pool, and those of `pool` are given no other. -/
def RoutedExactly (P : Platform) (pool : String) : Prop :=
  ∀ (executionPool : String → Option String) (shardCount : Nat) (rec : EventRecord)
    (other : String), other ≠ "" → executionPool rec.payload = some other →
      ((poolFilter pool).matches (d1CommandSubject P executionPool shardCount rec) = true ↔
        pool = other)

/-- The name is one literal token of a filter. -/
def OneToken (pool : String) : Prop := '.' ∉ pool.toList ∧ pool ≠ "*" ∧ pool ≠ ">"

instance (pool : String) : Decidable (OneToken pool) := inferInstanceAs (Decidable (_ ∧ _))

theorem poolFilter_tokens (pool : String) :
    (poolFilter pool).tokens = "commands" :: (parse pool).tokens ++ [">"] := by
  have head : "commands.".toList ++ pool.toList = "commands".toList ++ '.' :: pool.toList := rfl
  have dot : ".>".toList = '.' :: ">".toList := rfl
  have words : "commands".toList.splitOn '.' = ["commands".toList] := by decide
  have tail : ">".toList.splitOn '.' = [">".toList] := by decide
  simp only [poolFilter, parse, String.toList_append, dot, splitOn_append_cons_self,
    tail, head, words, filter_append, map_append]
  simp

theorem matches_command (P : Platform) {executionPool} (shardCount : Nat)
    {rec pool other} (named : other ≠ "") (is_other : executionPool rec.payload = some other) :
    (poolFilter pool).matches (d1CommandSubject P executionPool shardCount rec) =
      matchesFrom ((parse pool).tokens ++ [">"]) [other, "shard",
        toString (L0.shardForExecution P rec.executionId (max shardCount 1))] := by
  simp [SubjectFilter.matches, poolFilter_tokens, d1CommandSubject, is_other, named,
    Subject.command,
    matchesFrom, Option.filter_some]

theorem not_mem_of_mem_splitOn {t cs : List Char} (mem : t ∈ cs.splitOn '.') : '.' ∉ t := by
  induction cs generalizing t with
  | nil =>
    rw [splitOn_nil, mem_singleton] at mem
    exact mem ▸ not_mem_nil
  | cons c cs ih =>
    rw [splitOn_cons_eq_if_modifyHead] at mem
    split at mem
    · rcases mem_cons.1 mem with rfl | mem
      · exact not_mem_nil
      · exact ih mem
    · rename_i other
      cases rest : cs.splitOn '.' with
      | nil => simp [rest] at mem
      | cons first more =>
        rw [rest] at ih mem
        rcases mem_cons.1 mem with rfl | mem
        · rintro (_ | ⟨_, later⟩)
          · exact other rfl
          · exact ih (mem_cons_self ..) later
        · exact ih (.tail _ mem)

/-- A filter that takes a token it does not have takes any other in its place. -/
theorem matchesFrom_other {filter rest token} (other : String)
    (absent : token ∉ filter) (hit : matchesFrom (filter ++ [">"]) (token :: rest)) :
    matchesFrom (filter ++ [">"]) (other :: rest) := by
  cases filter with
  | nil => simp [matchesFrom]
  | cons f fs =>
    simp only [cons_append, matchesFrom] at hit ⊢
    grind

/-- The filter of a pool takes the commands of this pool and no others if and only if its name is
one literal token: it has no dot and is not a wildcard. -/
theorem pool_filter_is_exact (P : Platform) (pool : String) (named : pool ≠ "") :
    RoutedExactly P pool ↔ OneToken pool := by
  constructor
  · intro routed
    have command (q : String) (named : q ≠ "") :
        matchesFrom ((parse pool).tokens ++ [">"]) [q, "shard",
          toString (L0.shardForExecution P "" 1)] = true ↔ pool = q := by
      rw [← routed (fun _ => some q) 1 ⟨0, "", "", "", none, none⟩ q named rfl,
        matches_command P 1 named rfl]
      rfl
    refine ⟨fun dotted => ?_, ?_, ?_⟩
    · have own := (command pool named).2 rfl
      have absent : pool ∉ (parse pool).tokens := by
        intro mem
        obtain ⟨t, mem, is_pool⟩ := mem_map.1 mem
        refine not_mem_of_mem_splitOn (mem_filter.1 mem).1 ?_
        rwa [← is_pool, String.toList_ofList] at dotted
      have taken := matchesFrom_other "a" absent own
      cases (command "a" (by decide)).1 taken
      exact absurd dotted (by decide)
    · rintro rfl
      exact absurd ((command "a" (by decide)).1 rfl) (by decide)
    · rintro rfl
      cases (command ">" (by decide)).2 rfl
  · rintro ⟨plain, star, tail⟩ executionPool shardCount rec other named' is_other
    have own : (parse pool).tokens = [pool] := by
      simp [parse, splitOn_eq_singleton plain, named]
    rw [matches_command P shardCount named' is_other, own]
    simp [matchesFrom, star, tail]

theorem shared_filter_is_exact : RoutedExactly L0.samplePlatform "shared" :=
  (pool_filter_is_exact L0.samplePlatform "shared" (by decide)).2 (by decide)

def commandOf (pool : String) : Subject :=
  d1CommandSubject L0.samplePlatform (fun _ => some pool) 4 ⟨1, "", "t", "", none, none⟩

/-- A pool `a.b` is not given its own commands, and the workers of a pool `*` or `a.shard` are given
those of others. -/
theorem pool_filter_is_inexact : (poolFilter "a.b").matches (commandOf "a.b") = false ∧
    (poolFilter "*").matches (commandOf "shared") = true ∧
    (poolFilter "a.shard").matches (commandOf "a") = true := by
  decide

end Ehdb.Theorems
