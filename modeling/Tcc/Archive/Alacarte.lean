import Tcc.Archive.Ar
import Tcc.Link.Supplied

/-! Loading from an archive what is undefined: the index is gone through until nothing is loaded any
    more. -/

namespace tcc.obj

open tcc.elf

/-- An archive: its bytes, and what is read as an object at a position of it. -/
structure Archive where
  file : Bytes
  object_at : Nat → Option Object

/-- An entry of the index: a name and where the member is that has it. -/
abbrev IndexEntry := Name × Nat

/-- The `n` entries from number `i` on, with the name of the first at `p`, up to one that is not in the
    buffer; and whether all are. -/
def read_index (data : Bytes) (entrysize : Nat) : Nat → Nat → Nat → List IndexEntry × Bool
  | 0, _, _ => ([], true)
  | n + 1, i, p =>
    if (data.drop p).contains 0#8 then
      let name := string_at data p
      let off := archive.get_be ((data.drop (entrysize + i * entrysize)).take entrysize)
      let (entries, inside) := read_index data entrysize n (i + 1) (p + name.1.length + 1)
      ((name, off) :: entries, inside)
    else ([], false)

/-- `nsyms`, an `int`; a negative one is like zero. -/
def nsyms (data : Bytes) (entrysize : Nat) : Nat :=
  (BitVec.ofNat 32 (archive.get_be (data.take entrysize))).toInt.toNat

/-- What a read of the index can end with: an error, or a place that is not in the buffer or in the file. -/
inductive Halt where
  | error
  | outside

/-- A member that has been loaded, the name that it was loaded for, and the linker before and after. -/
structure Load where
  name : Name
  member : Nat
  before : State
  after : State

/-- `read_ar_header` and `tcc_load_object_file` for an entry. The place of a header is an `int`. -/
def load_member (a : Archive) (s : State) (off : Nat) : Except Halt (Nat × State) :=
  if 2 ^ 31 ≤ off % 2 ^ 32 then throw .outside
  else
    match archive.read_ar_header a.file (off % 2 ^ 32) with
    | .eof | .error => throw .error
    | .header hdr =>
      if hdr.ar_fmag ≠ archive.ARFMAG then throw .error
      else
        let off := (off + 60) % 2 ^ 64
        match a.object_at off with
        | none => throw .error
        | some obj =>
          match tcc_load_object_file s obj with
          | none => throw .error
          | some (s, _) => return (off, s)

/-- An entry: its member is loaded if the name is there and undefined. -/
def visit (a : Archive) (s : State) (e : IndexEntry) : Except Halt (State × List Load) :=
  match (find s.syms e.1).bind (s.syms[·]?) with
  | none => return (s, [])
  | some sym =>
    if sym.2.st_shndx ≠ SHN_UNDEF then return (s, [])
    else do
      let (member, s') ← load_member a s e.2
      return (s', [⟨e.1, member, s, s'⟩])

/-- The entries once, with the members that are loaded in order. -/
def visit_all (a : Archive) : List IndexEntry → State → Except Halt (State × List Load)
  | [], s => return (s, [])
  | e :: entries, s => do
    let (s, loads) ← visit a s e
    let (s, loads') ← visit_all a entries s
    return (s, loads ++ loads')

/-- One round over the index. -/
def round (a : Archive) (index : List IndexEntry × Bool) (s : State) : Except Halt (State × List Load) := do
  let (s, loads) ← visit_all a index.1 s
  if index.2 then return (s, loads) else throw .outside

/-- `do { .. } while (bound)` -/
def rounds (a : Archive) (index : List IndexEntry × Bool) :
    Nat → State → Option (Except Halt (State × List Load))
  | 0, _ => none
  | fuel + 1, s =>
    match round a index s with
    | .error h => some (.error h)
    | .ok (s, loads) =>
      if loads.length = 0 then some (.ok (s, loads))
      else (rounds a index fuel s).map fun r => r.map fun (s, loads') => (s, loads ++ loads')

/-- The index, of `size` bytes at a place of the file. -/
def alacarte_index (data : Bytes) (entrysize : Nat) : List IndexEntry × Bool :=
  if data.length < entrysize then ([], false)
  else read_index data entrysize (nsyms data entrysize) 0 (entrysize + nsyms data entrysize * entrysize)

def tcc_load_alacarte (a : Archive) (offset size entrysize fuel : Nat) (s : State) :
    Option (Except Halt (State × List Load)) :=
  let data := (a.file.drop offset).take size
  if data.length ≠ size then some (.error .error) else rounds a (alacarte_index data entrysize) fuel s

/-- An entry that is undefined has a member at a place that is an `int`, and the member supplies the
    name if it is loaded. -/
def Supplied (a : Archive) (s : State) (e : IndexEntry) : Prop :=
  Undefined s.syms e.1 → e.2 % 2 ^ 32 < 2 ^ 31 ∧
    ∀ member s', load_member a s e.2 = .ok (member, s') → ∃ obj ∈ a.object_at member, Supplies s obj e.1

/-- The entries are supplied, each in the state in which it is looked at. -/
def AllSupplied (a : Archive) : List IndexEntry → State → Prop
  | [], _ => True
  | e :: entries, s => Supplied a s e ∧ ∀ s' loads, visit a s e = .ok (s', loads) → AllSupplied a entries s'

/-- The entries are supplied in every round. -/
def EveryRound (a : Archive) (index : List IndexEntry × Bool) (s : State) : Prop :=
  ∀ s', Relation.ReflTransGen (fun s s' => ∃ loads, round a index s = .ok (s', loads)) s s' →
    AllSupplied a index.1 s'

/-- No name of the index is undefined any more, and the members that were loaded are distinct; each
    has defined a name that was undefined. -/
structure Complete (entries : List IndexEntry) (s : State) (loads : List Load) : Prop where
  closed : ∀ e ∈ entries, ¬ Undefined s.syms e.1
  once : (loads.map Load.member).Nodup
  needed : ∀ l ∈ loads, Undefined l.before.syms l.name ∧ Defined l.after.syms l.name

/-- The end with an error, or with success and all that it is to mean. -/
def Ends (entries : List IndexEntry) (r : Except Halt (State × List Load)) : Prop :=
  r = .error .error ∨ ∃ s loads, r = .ok (s, loads) ∧ Complete entries s loads

section runs

variable {a : Archive} {s s' : State} {loads : List Load} {e : IndexEntry}

/-- What holds of a member that has been loaded. -/
structure LoadedFor (a : Archive) (s : State) (l : Load) : Prop where
  undefined : Undefined l.before.syms l.name
  defined : Defined l.after.syms l.name
  object : ∃ obj r, a.object_at l.member = some obj ∧ tcc_load_object_file l.before obj = some (l.after, r)
  unique : Unique l.before.syms
  later : l.before.Later l.after ∧ l.after.Later s

structure Loading (a : Archive) (s : State) (loads : List Load) : Prop where
  unique : Unique s.syms
  loaded : ∀ l ∈ loads, LoadedFor a s l
  once : (loads.map Load.member).Nodup

theorem visit_of_undefined (hundef : Undefined s.syms e.1) :
    visit a s e = (load_member a s e.2).map fun (member, s') => (s', [⟨e.1, member, s, s'⟩]) := by
  obtain ⟨k, x, hfind, hx, hshndx⟩ := hundef
  rw [visit, hfind]
  dsimp only [Option.bind_some]
  rw [hx]
  dsimp only
  rw [if_neg (not_not.mpr hshndx)]
  cases load_member a s e.2 with
  | error h => rfl
  | ok r => rfl

theorem visit_of_not_undefined (hundef : ¬ Undefined s.syms e.1) : visit a s e = .ok (s, []) := by
  rw [visit]
  cases hfind : find s.syms e.1 with
  | none => rfl
  | some k =>
    dsimp only [Option.bind_some]
    cases hx : s.syms[k]? with
    | none => rfl
    | some x =>
      dsimp only
      rw [if_pos fun hshndx => hundef ⟨k, x, hfind, hx, hshndx⟩]
      rfl

/-- A member comes from an object, or the end is an error if the place of the member is an `int`. -/
theorem load_member_spec (off : Nat) (hint : off % 2 ^ 32 < 2 ^ 31) :
    load_member a s off = .error .error ∨ ∃ member s' obj r, load_member a s off = .ok (member, s') ∧
      a.object_at member = some obj ∧ tcc_load_object_file s obj = some (s', r) := by
  rw [load_member, if_neg (by omega)]
  cases archive.read_ar_header a.file (off % 2 ^ 32) with
  | eof => exact .inl rfl
  | error => exact .inl rfl
  | header hdr =>
    dsimp only
    split
    · exact .inl rfl
    · cases hobj : a.object_at ((off + 60) % 2 ^ 64) with
      | none => exact .inl rfl
      | some obj =>
        dsimp only
        cases hload : tcc_load_object_file s obj with
        | none => exact .inl rfl
        | some r =>
          obtain ⟨s', r⟩ := r
          exact .inr ⟨_, s', obj, r, rfl, hobj, hload⟩

theorem LoadedFor.mono {l : Load} (h : LoadedFor a s l) (hlater : s.Later s') : LoadedFor a s' l :=
  ⟨h.undefined, h.defined, h.object, h.unique, h.later.1, h.later.2.trans hlater⟩

/-- An entry that is supplied: nothing happens if it is not undefined, and it is defined after the load
    of a member that was not loaded before. -/
theorem Loading.visit (h : Loading a s loads) (hsupplied : Supplied a s e) :
    visit a s e = .error .error ∨ ∃ s' new, visit a s e = .ok (s', new) ∧ Loading a s' (loads ++ new) ∧
      s.Later s' ∧ ((new = [] ∧ s' = s ∧ ¬ Undefined s.syms e.1) ∨
        (new.length = 1 ∧ ¬ Defined s.syms e.1 ∧ Defined s'.syms e.1)) := by
  by_cases hundef : Undefined s.syms e.1
  · obtain ⟨hint, hsupplies⟩ := hsupplied hundef
    rw [visit_of_undefined hundef]
    rcases load_member_spec e.2 hint with herror | ⟨member, s', obj, r, hmember, hobj, hload⟩
    · rw [herror]
      exact .inl rfl
    · obtain ⟨obj', hobj', hname⟩ := hsupplies member s' hmember
      obtain rfl := Option.some.inj (hobj.symm.trans hobj')
      obtain ⟨hunique', hlater, hdefined⟩ := load_object_defined h.unique hload
      have hnot := hundef.not_defined h.unique
      rw [hmember]
      refine .inr ⟨s', _, rfl, ⟨hunique', fun l hl => ?_, ?_⟩, hlater, .inr ⟨rfl, hnot, hdefined _ hname⟩⟩
      · rcases List.mem_append.mp hl with hl | hl
        · exact (h.loaded l hl).mono hlater
        · obtain rfl := List.mem_singleton.mp hl
          exact ⟨hundef, hdefined _ hname, ⟨obj, r, hobj, hload⟩, h.unique, hlater, State.Later.refl s'⟩
      · rw [List.map_append, List.nodup_append]
        refine ⟨h.once, List.nodup_singleton _, fun m hm m' hm' heq => ?_⟩
        obtain ⟨l, hl, rfl⟩ := List.mem_map.mp hm
        obtain rfl := List.mem_singleton.mp hm'
        -- the first load of the member would have defined the name
        obtain ⟨-, -, ⟨obj₁, r₁, hobj₁, hload₁⟩, hunique₁, hlater₁, hlater₂⟩ := h.loaded l hl
        rw [heq, hobj] at hobj₁
        obtain rfl := Option.some.inj hobj₁
        have hfirst := hname.earlier (hlater₁.trans hlater₂) hload₁
        exact hnot (hlater₂.defined _ ((load_object_defined hunique₁ hload₁).2.2 _ hfirst))
  · refine .inr ⟨s, [], visit_of_not_undefined hundef, ?_, State.Later.refl s, .inl ⟨rfl, rfl, hundef⟩⟩
    rw [List.append_nil]
    exact h

/-- The number of entries that have no definition yet. -/
def pending (entries : List IndexEntry) (s : State) : Nat := entries.countP fun e => !s.syms.any (defines e.1)

theorem defined_iff {l : List Named} {name : Name} : Defined l name ↔ l.any (defines name) = true :=
  List.any_eq_true.symm

theorem pending_le (entries : List IndexEntry) (hlater : s.Later s') :
    pending entries s' ≤ pending entries s := by
  refine List.countP_mono_left fun e _ he => ?_
  rw [Bool.not_eq_true', ← Bool.not_eq_true, ← defined_iff] at he ⊢
  exact fun hdef => he (hlater.defined _ hdef)

theorem pending_lt {entries : List IndexEntry} (hlater : s.Later s') (he : e ∈ entries)
    (hbefore : ¬ Defined s.syms e.1) (hafter : Defined s'.syms e.1) :
    pending entries s' < pending entries s := by
  induction entries with
  | nil => exact absurd he List.not_mem_nil
  | cons e' entries ih =>
    have hle := pending_le entries hlater
    have hle' := pending_le [e'] hlater
    rw [pending, pending, List.countP_cons, List.countP_cons]
    rw [pending, pending, List.countP_singleton, List.countP_singleton] at hle'
    rw [pending, pending] at hle
    rcases List.mem_cons.mp he with rfl | he
    · rw [defined_iff] at hbefore hafter
      rw [if_neg (by simp [hafter]), if_pos (by simp [hbefore])]
      omega
    · have := ih he
      rw [pending, pending] at this
      omega

/-- The entries once: each load leaves fewer names without a definition. -/
theorem Loading.visit_all {all entries : List IndexEntry} (hall : ∀ e ∈ entries, e ∈ all)
    (h : Loading a s loads) (hsupplied : AllSupplied a entries s) :
    visit_all a entries s = .error .error ∨ ∃ s' new, visit_all a entries s = .ok (s', new) ∧
      Loading a s' (loads ++ new) ∧ pending all s' + new.length ≤ pending all s ∧
        (new = [] → s' = s ∧ ∀ e ∈ entries, ¬ Undefined s.syms e.1) := by
  induction entries generalizing s loads with
  | nil =>
    refine .inr ⟨s, [], rfl, ?_, le_rfl, fun _ => ⟨rfl, fun e he => absurd he List.not_mem_nil⟩⟩
    rw [List.append_nil]
    exact h
  | cons e entries ih =>
    obtain ⟨hsup, hrest⟩ := hsupplied
    rw [obj.visit_all]
    rcases h.visit hsup with herror | ⟨s₁, new₁, hvisit, h₁, hlater₁, hcases⟩
    · rw [herror]
      exact .inl rfl
    · have hmeasure₁ : pending all s₁ + new₁.length ≤ pending all s := by
        rcases hcases with ⟨rfl, rfl, -⟩ | ⟨hlen, hbefore, hafter⟩
        · exact le_rfl
        · have := pending_lt hlater₁ (hall e List.mem_cons_self) hbefore hafter
          omega
      have htail := ih (fun e he => hall e (List.mem_cons_of_mem _ he)) h₁ (hrest s₁ new₁ hvisit)
      rw [hvisit]
      rcases htail with herror | ⟨s₂, new₂, hvisit₂, h₂, hmeasure₂, hnone⟩
      · refine .inl ?_
        change (obj.visit_all a entries s₁).bind _ = _
        rw [herror]
        rfl
      · refine .inr ⟨s₂, new₁ ++ new₂, ?_, by rw [← List.append_assoc]; exact h₂, ?_, fun hnil => ?_⟩
        · change (obj.visit_all a entries s₁).bind _ = _
          rw [hvisit₂]
          rfl
        · rw [List.length_append]
          omega
        · obtain ⟨rfl, rfl⟩ := List.append_eq_nil_iff.mp hnil
          obtain ⟨rfl, hundef⟩ := hnone rfl
          rcases hcases with ⟨-, rfl, hfirst⟩ | ⟨hlen, -, -⟩
          · refine ⟨rfl, fun e' he' => ?_⟩
            rcases List.mem_cons.mp he' with rfl | he'
            · exact hfirst
            · exact hundef e' he'
          · cases hlen

theorem round_of_visit_all {index : List IndexEntry × Bool} (hinside : index.2 = true) (s : State) :
    round a index s = obj.visit_all a index.1 s := by
  rw [round]
  cases obj.visit_all a index.1 s with
  | error h => rfl
  | ok r =>
    obtain ⟨s', new⟩ := r
    change (if index.2 = true then Except.ok (s', new) else throw Halt.outside) = _
    rw [if_pos hinside]

/-- The rounds end: after as many as there are entries without a definition, and one more. -/
theorem Loading.rounds {index : List IndexEntry × Bool} (hinside : index.2 = true) (h : Loading a s loads)
    (hevery : EveryRound a index s) :
    ∃ fuel r, rounds a index fuel s = some r ∧ (r = .error .error ∨ ∃ s' new, r = .ok (s', new) ∧
      Loading a s' (loads ++ new) ∧ ∀ e ∈ index.1, ¬ Undefined s'.syms e.1) := by
  induction hn : pending index.1 s using Nat.strong_induction_on generalizing s loads with
  | _ n ih =>
    rcases h.visit_all (fun _ => id) (hevery s .refl) with herror | ⟨s₁, new₁, hvisit, h₁, hmeasure, hnone⟩
    · refine ⟨1, .error .error, ?_, .inl rfl⟩
      rw [obj.rounds, round_of_visit_all hinside, herror]
    · rw [← round_of_visit_all hinside] at hvisit
      by_cases hnil : new₁ = []
      · obtain ⟨rfl, hundef⟩ := hnone hnil
        subst hnil
        refine ⟨1, .ok (s₁, []), ?_, .inr ⟨s₁, [], rfl, h₁, hundef⟩⟩
        rw [obj.rounds, hvisit]
        rfl
      · have hlen : 0 < new₁.length := List.length_pos_iff.mpr hnil
        obtain ⟨fuel, r, hrounds, hr⟩ := ih (pending index.1 s₁) (by omega) h₁
          (fun s' hrun => hevery s' (.head ⟨new₁, hvisit⟩ hrun)) rfl
        have hstep : obj.rounds a index (fuel + 1) s = some (r.map fun (s', new) => (s', new₁ ++ new)) := by
          rw [obj.rounds, hvisit]
          dsimp only
          rw [if_neg (by omega), hrounds]
          rfl
        refine ⟨fuel + 1, _, hstep, ?_⟩
        rcases hr with rfl | ⟨s₂, new₂, rfl, h₂, hundef⟩
        · exact .inl rfl
        · exact .inr ⟨s₂, new₁ ++ new₂, rfl, by rw [← List.append_assoc]; exact h₂, hundef⟩

end runs

def symbol_f : Name := ⟨[102#8], nul_notMem_f⟩

/-- An archive with one member, and an index with the name `f` for it that says it has `n` names. -/
def archive_of (n : BitVec 8) (obj : Object) : Archive where
  file := archive.ARMAG ++ archive.ar_header (chars "/" ++ archive.spaces 15) (chars "0       ") 10 ++
    [0, 0, 0, n, 0, 0, 0, 78, 102, 0] ++ archive.ar_header (chars "f.o/" ++ archive.spaces 12)
    (chars "100666  ") 0
  object_at off := if off = 138 then some obj else none

def null_symbol : Named := (⟨[], List.not_mem_nil⟩, ⟨0, 0, .STB_LOCAL, 0, 0, SHN_UNDEF⟩)

/-- The linker with nothing but a reference to `f`, or with its definition. -/
def linker_of (sym : ElfSym) : State where
  sections := [⟨string_at (chars ".symtab") 0, SHT_SYMTAB, 0, 8, 24, none, 0, [], [], 48⟩]
  symtab_section := 0
  stab_section := none
  syms := [null_symbol, (symbol_f, sym)]
  rules := ⟨fun _ => none, false, 3, false, []⟩

def undefined_f : ElfSym := ⟨0, 0, .STB_GLOBAL, 0, 0, SHN_UNDEF⟩

def absolute_f : ElfSym := ⟨5, 0, .STB_GLOBAL, 0, 0, 0xfff1⟩

/-- An object with symbols and no contents. -/
def object_of (syms : List Named) : Object where
  shdrs := [
    ⟨string_at [] 0, 0, 0, 0, 0, 0, 0, 0, [], []⟩,
    ⟨string_at (chars ".symtab") 0, SHT_SYMTAB, 0, 8, 24, 24 + 24 * syms.length, 2, 1, [], []⟩,
    ⟨string_at (chars ".strtab") 0, SHT_STRTAB, 0, 1, 0, 3, 0, 0, [0#8, 102#8, 0#8], []⟩,
    ⟨string_at (chars ".shstrtab") 0, SHT_STRTAB, 0, 1, 0, 1, 0, 0, [0#8], []⟩]
  e_shstrndx := 3
  syms := null_symbol :: syms

theorem unique_linker_of (sym : ElfSym) : Unique (linker_of sym).syms := by
  have hone : ∀ (i : Nat) (x : Named), (linker_of sym).syms[i]? = some x → x.2.bind ≠ .STB_LOCAL → i = 1 := by
    intro i x hx hlocal
    match i with
    | 0 =>
      cases hx
      exact absurd rfl hlocal
    | 1 => rfl
    | i + 2 => cases hx
  intro i j x y hi hj hx hy _
  rw [hone i x hi hx, hone j y hj hy]

end tcc.obj
