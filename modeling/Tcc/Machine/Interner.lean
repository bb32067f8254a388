import Mathlib.Data.List.Nodup

/-! Numbers for names in the order in which the names are met, and tables whose entries are also
    found through chains. -/

namespace machine.interner

section names

variable {κ : Type} [DecidableEq κ]

/-- The names with one more; a name's number is where it stands. -/
def intern (names : List κ) (k : κ) : List κ := if k ∈ names then names else names ++ [k]

variable {names : List κ} {k : κ}

theorem mem_intern : k ∈ intern names k := by
  rw [intern]
  split
  · assumption
  · exact List.mem_append_right _ List.mem_cons_self

theorem prefix_intern : names <+: intern names k := by
  rw [intern]
  split
  · exact List.prefix_refl _
  · exact List.prefix_append _ _

theorem nodup_intern (hnodup : names.Nodup) : (intern names k).Nodup := by
  rw [intern]
  split
  · exact hnodup
  · rename_i hnew
    rw [List.nodup_append]
    refine ⟨hnodup, List.nodup_singleton k, ?_⟩
    intro a ha b hb heq
    rw [List.mem_singleton.mp hb] at heq
    exact hnew (heq ▸ ha)

end names

section numbers

variable {κ : Type} [BEq κ] [LawfulBEq κ] {names more : List κ} {k k' : κ}

/-- A name keeps its number for ever. -/
theorem idxOf_of_prefix (hgrown : names <+: more) (hk : k ∈ names) : more.idxOf k = names.idxOf k := by
  obtain ⟨tail, rfl⟩ := hgrown
  exact List.idxOf_append_of_mem hk

/-- Two names have the same number exactly when they are the same name. -/
theorem idxOf_eq_iff (hk : k ∈ names) : names.idxOf k = names.idxOf k' ↔ k = k' :=
  ⟨fun heq => List.idxOf_inj hk |>.mp heq, fun heq => heq ▸ rfl⟩

end numbers

section chains

variable {ε κ ι : Type} [DecidableEq ι] (hash : κ → ι) (key : ε → κ)

/-- Each chain holds the entries of its hash value, in the order of the table. -/
def Chained (chain : ι → List ε) (table : List ε) : Prop :=
  ∀ h, chain h = table.filter fun e => hash (key e) = h

variable {hash key} {chain : ι → List ε} {table : List ε}

/-- What the chain of a key finds is what the table finds. -/
theorem Chained.find? [DecidableEq κ] (hchained : Chained hash key chain table) (k : κ) :
    (chain (hash k)).find? (fun e => key e = k) = table.find? fun e => key e = k := by
  rw [hchained, List.find?_filter]
  congr 1
  funext e
  by_cases heq : key e = k
  · simp [heq]
  · simp [heq]

/-- An entry that goes to the end of the table and of its chain. -/
theorem Chained.append (hchained : Chained hash key chain table) (e : ε) :
    Chained hash key (Function.update chain (hash (key e)) (chain (hash (key e)) ++ [e])) (table ++ [e]) := by
  intro h
  rw [List.filter_append]
  by_cases heq : h = hash (key e)
  · rw [heq, Function.update_self, hchained]
    simp
  · rw [Function.update_of_ne heq, hchained]
    simp [Ne.symm heq]

end chains

end machine.interner
