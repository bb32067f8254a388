import Mathlib.Data.List.Basic
import Mathlib.Data.List.GetD
import Tcc.Link.HashIndex

/-! What holds of the hash section after any calls of `put_elf_sym` and `set_elf_sym`. -/

open machine.chains

namespace tcc.elf

namespace Symtab

section array

variable {hash : List Nat} {nb n h i : Nat} {key : Nat → Option Nat}

/-- The heads of the chains; there is no chain behind the last bucket. -/
def head (hash : List Nat) (nb h : Nat) : Nat := if h < nb then hash.getD (2 + h) 0 else 0

def next (hash : List Nat) (nb i : Nat) : Nat := hash.getD (2 + nb + i) 0

/-- The array for `n` symbols in `nb` buckets. -/
structure Stores (hash : List Nat) (nb n : Nat) (key : Nat → Option Nat) : Prop where
  buckets : hash.getD 0 0 = nb
  length : hash.length = 2 + nb + n
  index : Indexes (head hash nb) (next hash nb) key n

theorem getD_enter_chain (hlt : 2 + h < hash.length) (j : Nat) :
    (enter_chain hash h i).getD j 0 =
      if j = 2 + h then i else if j = hash.length then hash.getD (2 + h) 0 else hash.getD j 0 := by
  have hlen : 2 + h < (hash ++ [hash.getD (2 + h) 0]).length := by
    rw [List.length_append]
    omega
  rw [enter_chain, List.getD_eq_getElem?_getD, List.getElem?_set]
  by_cases hj : 2 + h = j
  · rw [if_pos hj, if_pos hlen, if_pos hj.symm]
    rfl
  · rw [if_neg hj, if_neg (Ne.symm hj)]
    by_cases hend : j = hash.length
    · rw [if_pos hend, hend, List.getElem?_concat_length]
      rfl
    · rw [if_neg hend]
      rcases Nat.lt_or_ge j hash.length with hin | hout
      · rw [List.getElem?_append_left hin, List.getD_eq_getElem?_getD]
      · rw [List.getElem?_eq_none (by rw [List.length_append, List.length_singleton]; omega),
          List.getD_eq_default _ _ hout]
        rfl

theorem length_enter_chain : (enter_chain hash h i).length = hash.length + 1 := by
  rw [enter_chain, List.length_set, List.length_append, List.length_singleton]

theorem getD_concat_zero (j : Nat) : (hash ++ [0]).getD j 0 = hash.getD j 0 := by
  rcases Nat.lt_or_ge j hash.length with hin | hout
  · rw [List.getD_append _ _ _ _ hin]
  · rw [List.getD_append_right _ _ _ _ hout, List.getD_eq_default _ _ hout]
    cases j - hash.length <;> rfl

/-- The next symbol goes on the chain of its bucket. -/
theorem Stores.push (hs : Stores hash nb n key) (hn : n ≠ 0) (hlt : h < nb) (hkey : key n = some h) :
    Stores (enter_chain hash h n) nb (n + 1) key := by
  have hlen := hs.length
  have hget := fun j => @getD_enter_chain hash h n (by omega) j
  refine ⟨?_, ?_, hs.index.push hn hkey (fun h' => ?_) (fun i hi => ?_) ?_⟩
  · rw [hget, if_neg (by omega), if_neg (by omega), hs.buckets]
  · rw [length_enter_chain, hlen]
    rfl
  · rw [head, head]
    by_cases hb : h' < nb
    · rw [if_pos hb, if_pos hb, hget]
      by_cases heq : h' = h
      · rw [if_pos heq, if_pos (by omega)]
      · rw [if_neg heq, if_neg (by omega), if_neg (by omega)]
    · rw [if_neg hb, if_neg hb, if_neg (by omega)]
  · rw [next, next, hget, if_neg (by omega), if_neg (by omega)]
  · rw [next, head, hget, if_neg (by omega), if_pos hlen.symm, if_pos hlt]

/-- A local symbol leaves its place on no chain. -/
theorem Stores.skip (hs : Stores hash nb n key) (hkey : key n = none) :
    Stores (hash ++ [0]) nb (n + 1) key := by
  refine ⟨?_, ?_, hs.index.skip hkey (fun h => ?_) fun i _ => ?_⟩
  · rw [getD_concat_zero, hs.buckets]
  · rw [List.length_append, List.length_singleton, hs.length]
    rfl
  · rw [head, head, getD_concat_zero]
  · rw [next, next, getD_concat_zero]

/-- The count of the symbols is on no chain. -/
theorem Stores.modify (hs : Stores hash nb n key) (f : Nat → Nat) : Stores (hash.modify 1 f) nb n key := by
  have hget : ∀ j, j ≠ 1 → (hash.modify 1 f).getD j 0 = hash.getD j 0 := by
    intro j hj
    rw [List.getD_eq_getElem?_getD, List.getElem?_modify, List.getD_eq_getElem?_getD]
    simp [Ne.symm hj]
  refine ⟨?_, ?_, hs.index.congr (fun h => ?_) (fun i _ => ?_) fun i _ => rfl⟩
  · rw [hget 0 (by decide), hs.buckets]
  · rw [List.length_modify, hs.length]
  · rw [head, head, hget (2 + h) (by omega)]
  · rw [next, next, hget (2 + nb + i) (by omega)]

theorem Stores.congr {key' : Nat → Option Nat} (hs : Stores hash nb n key) (hkey : ∀ i < n, key' i = key i) :
    Stores hash nb n key' :=
  ⟨hs.buckets, hs.length, hs.index.congr (fun _ => rfl) (fun _ _ => rfl) hkey⟩

end array

section names

/-- A string stands in the table, with the zero that ends it. -/
def Stands (strtab : List (BitVec 8)) (offset : Nat) (name : Name) : Prop :=
  ∃ rest, strtab.drop offset = name.1 ++ 0#8 :: rest

variable {strtab more : List (BitVec 8)} {offset : Nat} {name : Name}

theorem Stands.lt (h : Stands strtab offset name) : offset < strtab.length := by
  obtain ⟨rest, hrest⟩ := h
  by_contra hge
  rw [List.drop_eq_nil_of_le (by omega)] at hrest
  exact absurd hrest.symm (by simp)

theorem Stands.string_at (h : Stands strtab offset name) : string_at strtab offset = name := by
  obtain ⟨rest, hrest⟩ := h
  apply Subtype.ext
  change (strtab.drop offset).takeWhile (· != 0#8) = name.1
  rw [hrest, List.takeWhile_append_of_pos]
  · simp
  · intro b hb
    simp only [bne_iff_ne, ne_eq]
    rintro rfl
    exact name.2 hb

/-- What is added at the end leaves the strings alone. -/
theorem Stands.append (h : Stands strtab offset name) : Stands (strtab ++ more) offset name := by
  have hlt := h.lt
  obtain ⟨rest, hrest⟩ := h
  exact ⟨rest ++ more, by rw [List.drop_append_of_le_length (by omega), hrest, List.append_assoc,
    List.cons_append]⟩

theorem stands_last (strtab : List (BitVec 8)) (name : Name) :
    Stands (strtab ++ name.1 ++ [0#8]) strtab.length name :=
  ⟨[], by rw [List.append_assoc, List.drop_left]⟩

end names

section invariant

variable (lk : Linker) (t : Symtab)

/-- The bucket that a symbol belongs in; a local one belongs in none. -/
def bucket_of (nb i : Nat) : Option Nat :=
  match t.syms[i]? with
  | some sym => if st_bind sym.st_info ≠ STB_LOCAL then some (bucket lk nb (t.name_at sym)) else none
  | none => none

/-- The table and its hash fit together. -/
structure Sound : Prop where
  pos : 0 < t.hash.getD 0 0
  count : t.hash.getD 1 0 = t.syms.length
  null : bucket_of lk t (t.hash.getD 0 0) 0 = none
  nonempty : 0 < t.syms.length
  names : ∀ sym ∈ t.syms, ∃ name, Stands t.strtab sym.st_name name
  empty : Stands t.strtab 0 ⟨[], List.not_mem_nil⟩
  stores : Stores t.hash (t.hash.getD 0 0) t.syms.length (bucket_of lk t (t.hash.getD 0 0))

variable {lk t}

theorem bucket_of_eq_some {nb i h : Nat} :
    bucket_of lk t nb i = some h ↔ ∃ sym, t.syms[i]? = some sym ∧ st_bind sym.st_info ≠ STB_LOCAL ∧
      bucket lk nb (t.name_at sym) = h := by
  rw [bucket_of]
  cases t.syms[i]? with
  | none => simp
  | some sym => simp

theorem bucket_lt {nb : Nat} (hpos : 0 < nb) (name : Name) : bucket lk nb name < nb := Nat.mod_lt _ hpos

/-- The chains after the loop of `rebuild_hash`. -/
theorem Stores.rebuild {nb : Nat} (hpos : 0 < nb) {hash : List Nat} {syms : List Symbol} {i : Nat}
    (hi : i ≠ 0)
    (hdrop : t.syms.drop i = syms) (hs : Stores hash nb i (bucket_of lk t nb)) :
    Stores (rebuild_loop lk t nb syms i hash) nb (i + syms.length) (bucket_of lk t nb) ∧
      (rebuild_loop lk t nb syms i hash).getD 1 0 = hash.getD 1 0 := by
  induction syms generalizing i hash with
  | nil => exact ⟨hs, rfl⟩
  | cons sym syms ih =>
    have hsym : t.syms[i]? = some sym := by
      have := congrArg (·[0]?) hdrop
      simpa [List.getElem?_drop] using this
    have hnext : t.syms.drop (i + 1) = syms := by
      rw [← List.tail_drop, hdrop]
      rfl
    rw [rebuild_loop, List.length_cons, Nat.add_comm syms.length, ← Nat.add_assoc]
    by_cases hbind : st_bind sym.st_info ≠ STB_LOCAL
    · rw [if_pos hbind]
      have hkey : bucket_of lk t nb i = some (bucket lk nb (t.name_at sym)) :=
        bucket_of_eq_some.mpr ⟨sym, hsym, hbind, rfl⟩
      obtain ⟨hstores, hcount⟩ := ih (Nat.succ_ne_zero i) hnext (hs.push hi (bucket_lt hpos _) hkey)
      refine ⟨hstores, hcount.trans ?_⟩
      have hlen := hs.length
      rw [getD_enter_chain (by have := @bucket_lt lk nb hpos (t.name_at sym); omega), if_neg (by omega),
        if_neg (by omega)]
    · rw [if_neg hbind]
      have hkey : bucket_of lk t nb i = none := by
        rw [bucket_of, hsym]
        exact if_neg hbind
      obtain ⟨hstores, hcount⟩ := ih (Nat.succ_ne_zero i) hnext (hs.skip hkey)
      exact ⟨hstores, hcount.trans (getD_concat_zero 1)⟩

/-- The chains with another number of buckets. -/
theorem Sound.rebuild (hs : Sound lk t) {nb : Nat} (hpos : 0 < nb) : Sound lk (rebuild_hash lk t nb) := by
  have hhash : (rebuild_hash lk t nb).hash = rebuild_loop lk t nb t.syms.tail 1
      (nb :: t.syms.length :: List.replicate (nb + 1) 0) := by
    rw [rebuild_hash]
    dsimp only
    rw [if_neg (by omega)]
  have hnull : bucket_of lk t nb 0 = none := by
    have hold := hs.null
    rw [bucket_of] at hold ⊢
    cases hsym : t.syms[0]? with
    | none => rfl
    | some sym =>
      rw [hsym] at hold
      dsimp only at hold ⊢
      split
      · rename_i hbind
        rw [if_pos hbind] at hold
        exact absurd hold (by simp)
      · rfl
  have hzeros : ∀ j, (List.replicate (nb + 1) 0).getD j 0 = 0 := fun j => by
    rw [List.getD_eq_getElem?_getD, List.getElem?_replicate]
    split <;> rfl
  have hstart : Stores (nb :: t.syms.length :: List.replicate (nb + 1) 0) nb 1 (bucket_of lk t nb) := by
    refine ⟨rfl, ?_, indexes_one (fun h => ?_) hnull⟩
    · rw [List.length_cons, List.length_cons, List.length_replicate]
      omega
    · rw [head]
      split
      · rw [show 2 + h = h + 1 + 1 by omega]
        exact hzeros h
      · rfl
  obtain ⟨hstores, hcount⟩ := hstart.rebuild hpos (by decide) List.drop_one
  have hlen : 1 + t.syms.tail.length = t.syms.length := by
    rw [List.length_tail]
    have := hs.nonempty
    omega
  rw [hlen] at hstores
  rw [← hhash] at hstores hcount
  have hbuckets := hstores.buckets
  exact ⟨hbuckets.symm ▸ hpos, hcount, hbuckets.symm ▸ hnull, hs.nonempty, hs.names, hs.empty,
    hbuckets.symm ▸ hstores⟩

/-- The strings after a name has been added. -/
theorem put_elf_str_spec (hempty : Stands t.strtab 0 ⟨[], List.not_mem_nil⟩) (name : Name) :
    ∃ more, put_elf_str t name = ({ t with strtab := t.strtab ++ more }, (put_elf_str t name).2) ∧
      Stands (t.strtab ++ more) (put_elf_str t name).2 name := by
  rw [put_elf_str]
  by_cases hne : name.1 ≠ []
  · rw [if_pos hne]
    refine ⟨name.1 ++ [0#8], by rw [List.append_assoc], ?_⟩
    rw [← List.append_assoc]
    exact stands_last t.strtab name
  · rw [if_neg hne]
    have hname : name = ⟨[], List.not_mem_nil⟩ := Subtype.ext (not_not.mp hne)
    refine ⟨[], by rw [List.append_nil], ?_⟩
    rw [List.append_nil, hname]
    exact hempty

/-- The part for the hash of a table with one more symbol. -/
theorem Sound.hash_sym {info : BitVec 8} {name : Name} {n : Nat} (hn : t.syms.length = n + 1) (hn0 : n ≠ 0)
    (hsym : ∃ sym, t.syms[n]? = some sym ∧ sym.st_info = info ∧ t.name_at sym = name)
    (hpos : 0 < t.hash.getD 0 0) (hcount : t.hash.getD 1 0 = n)
    (hnull : bucket_of lk t (t.hash.getD 0 0) 0 = none)
    (hnames : ∀ sym ∈ t.syms, ∃ name, Stands t.strtab sym.st_name name)
    (hempty : Stands t.strtab 0 ⟨[], List.not_mem_nil⟩)
    (hstores : Stores t.hash (t.hash.getD 0 0) n (bucket_of lk t (t.hash.getD 0 0))) :
    Sound lk (hash_sym lk t info name n) := by
  obtain ⟨sym, hget, rfl, rfl⟩ := hsym
  obtain ⟨nb, hnb⟩ : ∃ nb, t.hash.getD 0 0 = nb := ⟨_, rfl⟩
  rw [hnb] at hpos hnull hstores
  have hsound : ∀ (hash : List Nat) (nb_hashed_syms : Nat), Stores hash nb (n + 1) (bucket_of lk t nb) →
      hash.getD 1 0 = n + 1 → Sound lk { t with hash := hash, nb_hashed_syms := nb_hashed_syms } := by
    intro hash nb_hashed_syms hs hc
    have hb := hs.buckets
    refine ⟨hb.symm ▸ hpos, hc.trans hn.symm, ?_, ?_, hnames, hempty, ?_⟩
    · rw [hb]
      exact hnull
    · change 0 < t.syms.length
      omega
    · rw [hb]
      exact hn.symm ▸ hs
  have hone : ∀ hash : List Nat, 1 < hash.length → hash.getD 1 0 = n →
      (hash.modify 1 (· + 1)).getD 1 0 = n + 1 := by
    intro hash hlen hc
    rw [List.getD_eq_getElem?_getD, List.getElem?_modify, List.getElem?_eq_getElem hlen]
    rw [List.getD_eq_getElem?_getD, List.getElem?_eq_getElem hlen] at hc
    simpa using hc
  have hlen := hstores.length
  rw [Symtab.hash_sym]
  dsimp only
  rw [hnb]
  by_cases hbind : st_bind sym.st_info ≠ STB_LOCAL
  · rw [if_pos hbind]
    have hkey : bucket_of lk t nb n = some (bucket lk nb (t.name_at sym)) :=
      bucket_of_eq_some.mpr ⟨sym, hget, hbind, rfl⟩
    have hlt : bucket lk nb (t.name_at sym) < nb := bucket_lt hpos _
    have hentered := hsound ((enter_chain t.hash (bucket lk nb (t.name_at sym)) n).modify 1 (· + 1))
      (t.nb_hashed_syms + 1) ((hstores.push hn0 hlt hkey).modify _)
        (hone _ (by rw [length_enter_chain]; omega) (by
        rw [getD_enter_chain (by omega), if_neg (by omega), if_neg (by omega), hcount]))
    split
    · exact hentered.rebuild (by omega)
    · exact hentered
  · rw [if_neg hbind]
    have hkey : bucket_of lk t nb n = none := by
      rw [bucket_of, hget]
      exact if_neg hbind
    exact hsound _ t.nb_hashed_syms ((hstores.skip hkey).modify _)
      (hone _ (by rw [List.length_append]; omega) ((getD_concat_zero 1).trans hcount))

/-- One more symbol. -/
theorem Sound.put_elf_sym (hs : Sound lk t) (sym : Symbol) (name : Name) :
    Sound lk (put_elf_sym lk t sym name).1 := by
  obtain ⟨more, hput, hstands⟩ := put_elf_str_spec hs.empty name
  obtain ⟨off, hoff⟩ : ∃ off, (put_elf_str t name).2 = off := ⟨_, rfl⟩
  rw [hoff] at hput hstands
  have hname : ∀ s ∈ t.syms, string_at (t.strtab ++ more) s.st_name = t.name_at s := by
    intro s hmem
    obtain ⟨name', hname'⟩ := hs.names s hmem
    rw [hname'.append.string_at, name_at, hname'.string_at]
  have hkey : ∀ nb, ∀ i < t.syms.length, bucket_of lk
      { t with strtab := t.strtab ++ more, syms := t.syms ++ [{ sym with st_name := off }] } nb i =
        bucket_of lk t nb i := by
    intro nb i hi
    rw [bucket_of, bucket_of, List.getElem?_append_left hi]
    cases hsym : t.syms[i]? with
    | none => rfl
    | some s =>
      dsimp only
      rw [name_at, hname s (List.mem_of_getElem? hsym)]
  rw [Symtab.put_elf_sym, hput]
  refine Sound.hash_sym (by rw [List.length_append]; rfl) (by have := hs.nonempty; omega)
    ⟨_, List.getElem?_concat_length, rfl, rfl⟩ hs.pos hs.count ?_ ?_ hs.empty.append ?_
  · exact (hkey _ 0 hs.nonempty).trans hs.null
  · intro s hmem
    rcases List.mem_append.mp hmem with hmem | hmem
    · obtain ⟨name', hname'⟩ := hs.names s hmem
      exact ⟨name', hname'.append⟩
    · rw [List.mem_singleton.mp hmem]
      exact ⟨name, hstands⟩
  · exact hs.stores.congr (hkey _)

/-- A symbol that is not local is replaced by another one of its name. -/
theorem Sound.replace {t' : Symtab} (hs : Sound lk t) {k : Nat} {esym esym' : Symbol}
    (hget : t.syms[k]? = some esym)
    (hbind : st_bind esym.st_info ≠ STB_LOCAL) (hname : esym'.st_name = esym.st_name)
    (hbind' : st_bind esym'.st_info ≠ STB_LOCAL) (hsyms : t'.syms = t.syms.set k esym')
    (hhash : t'.hash = t.hash)
    (hstrtab : t'.strtab = t.strtab) : Sound lk t' := by
  have hkey : ∀ nb i, bucket_of lk t' nb i = bucket_of lk t nb i := by
    intro nb i
    rw [bucket_of, bucket_of, hsyms, List.getElem?_set]
    by_cases hki : k = i
    · subst hki
      rw [if_pos rfl, if_pos (List.getElem?_eq_some_iff.mp hget).1, hget]
      dsimp only
      rw [if_pos hbind, if_pos hbind', name_at, name_at, hname, hstrtab]
    · rw [if_neg hki]
      cases t.syms[i]? with
      | none => rfl
      | some sym =>
        dsimp only
        rw [name_at, name_at, hstrtab]
  have hlen : t'.syms.length = t.syms.length := by rw [hsyms, List.length_set]
  refine ⟨hhash.symm ▸ hs.pos, ?_, ?_, hlen.symm ▸ hs.nonempty, ?_, hstrtab.symm ▸ hs.empty, ?_⟩
  · rw [hhash, hlen, hs.count]
  · rw [hhash, hkey, hs.null]
  · intro sym hmem
    rw [hsyms] at hmem
    rw [hstrtab]
    rcases List.mem_or_eq_of_mem_set hmem with hmem | rfl
    · exact hs.names sym hmem
    · rw [hname]
      exact hs.names esym (List.mem_of_getElem? hget)
  · rw [hhash, hlen]
    exact hs.stores.congr fun i _ => hkey _ i

/-- The symbol is replaced by another one of its name that is not local either. -/
def Patched (t : Symtab) (k : Nat) (esym : Symbol) (t' : Symtab) : Prop :=
  ∃ esym', esym'.st_name = esym.st_name ∧ st_bind esym'.st_info ≠ STB_LOCAL ∧ t'.syms = t.syms.set k esym' ∧
    t'.hash = t.hash ∧ t'.strtab = t.strtab

theorem patched_ite {k : Nat} {esym : Symbol} {p : Prop} [Decidable p] {t₁ t₂ : Symtab}
    (h₁ : Patched t k esym t₁) (h₂ : Patched t k esym t₂) : Patched t k esym (if p then t₁ else t₂) := by
  split
  · exact h₁
  · exact h₂

/-- What `set_elf_sym` does with a symbol that it finds. -/
theorem patched_merge {k : Nat} {esym sym : Symbol} (name : Name) (hget : t.syms[k]? = some esym)
    (hbind : st_bind esym.st_info ≠ STB_LOCAL) (hnew : st_bind sym.st_info ≠ STB_LOCAL) :
    Patched t k esym (merge lk t k esym sym name) := by
  obtain ⟨hlt, hk⟩ := List.getElem?_eq_some_iff.mp hget
  have hsame : Patched t k esym t := ⟨esym, rfl, hbind, by rw [← hk, List.set_getElem_self], rfl, rfl⟩
  have hkeep : ∀ other, Patched t k esym (t.set_sym k { esym with st_other := other }) :=
    fun other => ⟨{ esym with st_other := other }, rfl, hbind, rfl, rfl, rfl⟩
  have herror : ∀ other errors,
      Patched t k esym { t.set_sym k { esym with st_other := other } with errors := errors } :=
    fun other errors => ⟨{ esym with st_other := other }, rfl, hbind, rfl, rfl, rfl⟩
  have hpatch : ∀ other, Patched t k esym
      { t.set_sym k { sym with st_name := esym.st_name, st_other := other } with new_undef_sym := true } :=
    fun other => ⟨{ sym with st_name := esym.st_name, st_other := other }, rfl, hnew, rfl, rfl, rfl⟩
  rw [merge]
  refine patched_ite hsame (patched_ite ?_ (hpatch sym.st_other))
  exact patched_ite (hkeep _) (patched_ite (hpatch _) (patched_ite (hkeep _) (patched_ite (hkeep _)
    (patched_ite (hkeep _) (patched_ite (hpatch _) (patched_ite (hkeep _) (patched_ite (hkeep _)
      (patched_ite (hpatch _) (herror _ _)))))))))

/-- A search ends, at the last symbol of the name that is not local, if there is one. -/
theorem Sound.find_elf_sym (hs : Sound lk t) (name : Name) :
    ∃ k, find_elf_sym lk t name = some k ∧
      ((k ≠ 0 ∧ ∃ sym, t.syms[k]? = some sym ∧ st_bind sym.st_info ≠ STB_LOCAL ∧ t.name_at sym = name) ∨
        k = 0 ∧ ∀ sym ∈ t.syms, st_bind sym.st_info ≠ STB_LOCAL → t.name_at sym ≠ name) := by
  have hlt := @bucket_lt lk _ hs.pos name
  obtain ⟨k, hwalk, hk⟩ := hs.stores.index.walk_spec (bucket lk (t.hash.getD 0 0) name) (t.has_name name)
  rw [head, if_pos hlt] at hwalk
  refine ⟨k, hwalk, ?_⟩
  rcases hk with ⟨hne, -, hkey, hname⟩ | ⟨rfl, hnone⟩
  · obtain ⟨sym, hget, hbind, -⟩ := bucket_of_eq_some.mp hkey
    rw [has_name, hget] at hname
    exact .inl ⟨hne, sym, hget, hbind, of_decide_eq_true hname⟩
  · refine .inr ⟨rfl, fun sym hmem hbind hname => ?_⟩
    obtain ⟨i, hget⟩ := List.mem_iff_getElem?.mp hmem
    have hkey : bucket_of lk t (t.hash.getD 0 0) i = some (bucket lk (t.hash.getD 0 0) name) :=
      bucket_of_eq_some.mpr ⟨sym, hget, hbind, by rw [hname]⟩
    have hfalse := hnone i (List.getElem?_eq_some_iff.mp hget).1 hkey
    rw [has_name, hget, decide_eq_false_iff_not] at hfalse
    exact hfalse hname

end invariant

section runs

variable (lk : Linker)

inductive Op where
  | put_elf_sym (sym : Symbol) (name : Name)
  | set_elf_sym (sym : Symbol) (name : Name)

def Op.sym : Op → Symbol
  | .put_elf_sym sym _ => sym
  | .set_elf_sym sym _ => sym

def Op.name : Op → Name
  | .put_elf_sym _ name => name
  | .set_elf_sym _ name => name

def exec (t : Symtab) : Op → Option Symtab
  | .put_elf_sym sym name => some (put_elf_sym lk t sym name).1
  | .set_elf_sym sym name => (set_elf_sym lk t sym name).map Prod.fst

def run (t : Symtab) : List Op → Option Symtab
  | [] => some t
  | op :: ops => (exec lk t op).bind fun t => run t ops

/-- The table has a symbol of the name that is not local. -/
def Has (t : Symtab) (name : Name) : Prop :=
  ∃ sym ∈ t.syms, st_bind sym.st_info ≠ STB_LOCAL ∧ t.name_at sym = name

/-- What the hash section is for: a search finds what is there, every chain ends, a symbol is on the
    chain of its name and on no other one, and every symbol has its place in the array. -/
structure Indexed (t : Symtab) : Prop where
  found : ∀ name, ∃ k, find_elf_sym lk t name = some k ∧
    (Has t name → k ≠ 0 ∧ ∃ sym, t.syms[k]? = some sym ∧ st_bind sym.st_info ≠ STB_LOCAL ∧
      t.name_at sym = name) ∧
    (¬ Has t name → k = 0)
  ends : ∀ h < t.hash.getD 0 0, ∃ l, Path (next t.hash (t.hash.getD 0 0)) (t.hash.getD (2 + h) 0) l ∧ l.Nodup
  on_chain : ∀ h < t.hash.getD 0 0, ∀ l, Path (next t.hash (t.hash.getD 0 0)) (t.hash.getD (2 + h) 0) l →
    ∀ k, k ∈ l ↔ ∃ sym, t.syms[k]? = some sym ∧ st_bind sym.st_info ≠ STB_LOCAL ∧
      h = bucket lk (t.hash.getD 0 0) (t.name_at sym)
  size : t.hash.length = 2 + t.hash.getD 0 0 + t.syms.length ∧ t.hash.getD 1 0 = t.syms.length

variable {lk} {t : Symtab}

theorem Sound.indexed (hs : Sound lk t) : Indexed lk t := by
  refine ⟨fun name => ?_, fun h hlt => ?_, fun h hlt l hpath k => ?_, hs.stores.length, hs.count⟩
  · obtain ⟨k, hfind, hk⟩ := hs.find_elf_sym name
    refine ⟨k, hfind, ?_⟩
    rcases hk with ⟨hne, sym, hget, hbind, hname⟩ | ⟨rfl, hnone⟩
    · exact ⟨fun _ => ⟨hne, sym, hget, hbind, hname⟩,
        fun hno => absurd ⟨sym, List.mem_of_getElem? hget, hbind, hname⟩ hno⟩
    · exact ⟨fun ⟨sym, hmem, hbind, hname⟩ => absurd hname (hnone sym hmem hbind), fun _ => rfl⟩
  · have hpath := hs.stores.index h
    rw [head, if_pos hlt] at hpath
    exact ⟨_, hpath, nodup_members⟩
  · have hmembers := hs.stores.index h
    rw [head, if_pos hlt] at hmembers
    rw [hpath.unique hmembers, mem_members, bucket_of_eq_some]
    constructor
    · rintro ⟨-, sym, hget, hbind, hb⟩
      exact ⟨sym, hget, hbind, hb.symm⟩
    · rintro ⟨sym, hget, hbind, hb⟩
      exact ⟨(List.getElem?_eq_some_iff.mp hget).1, sym, hget, hbind, hb.symm⟩

/-- A new symbol adds its name, if it is not local. -/
theorem has_put_elf_sym (hs : Sound lk t) (sym : Symbol) (name name' : Name) :
    Has (put_elf_sym lk t sym name).1 name' ↔ Has t name' ∨ st_bind sym.st_info ≠ STB_LOCAL ∧
      name = name' := by
  obtain ⟨more, hput, hstands⟩ := put_elf_str_spec hs.empty name
  obtain ⟨off, hoff⟩ : ∃ off, (put_elf_str t name).2 = off := ⟨_, rfl⟩
  rw [hoff] at hput hstands
  have hparts : ∀ t₁ info n, (hash_sym lk t₁ info n t.syms.length).syms = t₁.syms ∧
      (hash_sym lk t₁ info n t.syms.length).strtab = t₁.strtab := by
    intro t₁ info n
    rw [hash_sym]
    dsimp only
    split
    · split
      · exact ⟨rfl, rfl⟩
      · exact ⟨rfl, rfl⟩
    · exact ⟨rfl, rfl⟩
  have hold : ∀ s ∈ t.syms, string_at (t.strtab ++ more) s.st_name = t.name_at s := by
    intro s hmem
    obtain ⟨name', hname'⟩ := hs.names s hmem
    rw [hname'.append.string_at, name_at, hname'.string_at]
  rw [Has, Symtab.put_elf_sym, hput]
  dsimp only
  simp only [name_at, (hparts _ _ _).1, (hparts _ _ _).2, List.mem_append, List.mem_singleton]
  constructor
  · rintro ⟨s, hmem | rfl, hbind, hname⟩
    · rw [hold s hmem] at hname
      exact .inl ⟨s, hmem, hbind, hname⟩
    · rw [hstands.string_at] at hname
      exact .inr ⟨hbind, hname⟩
  · rintro (⟨s, hmem, hbind, hname⟩ | ⟨hbind, rfl⟩)
    · exact ⟨s, .inl hmem, hbind, (hold s hmem).trans hname⟩
    · exact ⟨_, .inr rfl, hbind, hstands.string_at⟩

theorem has_replace {t' : Symtab} {k : Nat} {esym esym' : Symbol} (hget : t.syms[k]? = some esym)
    (hbind : st_bind esym.st_info ≠ STB_LOCAL) (hname : esym'.st_name = esym.st_name)
    (hbind' : st_bind esym'.st_info ≠ STB_LOCAL) (hsyms : t'.syms = t.syms.set k esym')
    (hstrtab : t'.strtab = t.strtab) (name : Name) : Has t' name ↔ Has t name := by
  obtain ⟨hlt, hk⟩ := List.getElem?_eq_some_iff.mp hget
  have hat : t'.name_at esym' = t.name_at esym := by rw [name_at, name_at, hname, hstrtab]
  have hsame : ∀ s, t'.name_at s = t.name_at s := fun s => by rw [name_at, name_at, hstrtab]
  rw [Has, Has, hsyms]
  constructor
  · rintro ⟨s, hmem, hb, hn⟩
    obtain ⟨i, hi⟩ := List.mem_iff_getElem?.mp hmem
    rw [List.getElem?_set] at hi
    split at hi
    · cases hi
      exact ⟨esym, List.mem_of_getElem? hget, hbind, hat.symm.trans hn⟩
    · exact ⟨s, List.mem_of_getElem? hi, hb, (hsame s).symm.trans hn⟩
  · rintro ⟨s, hmem, hb, hn⟩
    obtain ⟨i, hi⟩ := List.mem_iff_getElem?.mp hmem
    by_cases hki : k = i
    · subst hki
      rw [hget] at hi
      cases hi
      exact ⟨esym', List.mem_iff_getElem?.mpr ⟨k, by rw [List.getElem?_set, if_pos rfl, if_pos hlt]⟩, hbind',
        hat.trans hn⟩
    · exact ⟨s, List.mem_iff_getElem?.mpr ⟨i, by rw [List.getElem?_set, if_neg hki, hi]⟩, hb,
        (hsame s).trans hn⟩

/-- One call keeps the table sound and adds the name that it is about, if the symbol is not local. -/
theorem Sound.exec (hs : Sound lk t) (op : Op) :
    ∃ t', exec lk t op = some t' ∧ Sound lk t' ∧
      ∀ name, Has t' name ↔ Has t name ∨ st_bind op.sym.st_info ≠ STB_LOCAL ∧ op.name = name := by
  cases op with
  | put_elf_sym sym name => exact ⟨_, rfl, hs.put_elf_sym sym name, has_put_elf_sym hs sym name⟩
  | set_elf_sym sym name =>
    rw [Symtab.exec, Symtab.set_elf_sym]
    by_cases hbind : st_bind sym.st_info ≠ STB_LOCAL
    · rw [if_pos hbind]
      obtain ⟨k, hfind, hk⟩ := hs.find_elf_sym name
      rw [hfind]
      rcases hk with ⟨hne, esym, hget, hlocal, hname⟩ | ⟨rfl, -⟩
      · obtain ⟨esym', hname', hbind', hsyms, hhash, hstrtab⟩ :=
          @patched_merge lk t _ _ _ name hget hlocal hbind
        obtain ⟨j, rfl⟩ := Nat.exists_eq_succ_of_ne_zero hne
        refine ⟨merge lk t (j + 1) esym sym name, ?_,
          hs.replace hget hlocal hname' hbind' hsyms hhash hstrtab, ?_⟩
        · change ((t.syms[j + 1]?).map fun esym => (merge lk t (j + 1) esym sym name, j + 1)).map Prod.fst = _
          rw [hget]
          rfl
        · intro n
          rw [has_replace hget hlocal hname' hbind' hsyms hstrtab]
          refine ⟨.inl, fun h => h.elim id ?_⟩
          rintro ⟨-, heq⟩
          exact ⟨esym, List.mem_of_getElem? hget, hlocal, hname.trans heq⟩
      · exact ⟨_, rfl, hs.put_elf_sym sym name, has_put_elf_sym hs sym name⟩
    · rw [if_neg hbind]
      exact ⟨_, rfl, hs.put_elf_sym sym name, has_put_elf_sym hs sym name⟩

theorem Sound.run (hs : Sound lk t) (ops : List Op) :
    ∃ t', run lk t ops = some t' ∧ Sound lk t' ∧
      ∀ name, Has t' name ↔ Has t name ∨ ∃ op ∈ ops, st_bind op.sym.st_info ≠ STB_LOCAL ∧ op.name = name := by
  induction ops generalizing t with
  | nil => exact ⟨t, rfl, hs, fun name => by simp⟩
  | cons op ops ih =>
    obtain ⟨t₁, hexec, hs₁, hhas₁⟩ := hs.exec op
    obtain ⟨t', hrun, hs', hhas⟩ := ih hs₁
    refine ⟨t', by rw [Symtab.run, hexec]; exact hrun, hs', fun name => ?_⟩
    rw [hhas, hhas₁, List.exists_mem_cons_iff, or_assoc]

theorem sound_new_symtab (dynsym : Bool) : Sound lk (new_symtab dynsym) := by
  refine ⟨Nat.one_pos, rfl, rfl, Nat.one_pos, ?_, ⟨[], rfl⟩, ⟨rfl, rfl, indexes_one (fun h => ?_) rfl⟩⟩
  · intro sym hmem
    rw [List.mem_singleton.mp hmem]
    exact ⟨⟨[], List.not_mem_nil⟩, [], rfl⟩
  · rw [head]
    split
    · rename_i hlt
      rw [Nat.lt_one_iff.mp hlt]
      rfl
    · rfl

/-- After any calls the hash section is an index of the table, and it finds exactly the names that
    were entered with a symbol that is not local. -/
theorem indexed_of_calls (lk : Linker) (dynsym : Bool) (ops : List Op) :
    ∃ t, run lk (new_symtab dynsym) ops = some t ∧ Indexed lk t ∧
      ∀ name, Has t name ↔ ∃ op ∈ ops, st_bind op.sym.st_info ≠ STB_LOCAL ∧ op.name = name := by
  obtain ⟨t, hrun, hs, hhas⟩ := (@sound_new_symtab lk dynsym).run ops
  refine ⟨t, hrun, hs.indexed, fun name => ?_⟩
  have hnone : ¬ Has (new_symtab dynsym) name := by
    rintro ⟨sym, hmem, hbind, -⟩
    rw [List.mem_singleton.mp hmem] at hbind
    exact hbind rfl
  rw [hhas]
  exact or_iff_right hnone

end runs

end Symtab

end tcc.elf
