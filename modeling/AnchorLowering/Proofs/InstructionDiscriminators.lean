import AnchorLowering.Lowering.Program
import AnchorLowering.Proofs.Buffer
import AnchorLowering.Proofs.NameChecks

/-!
# Discriminators identify instructions

A run gives every instruction a discriminator of eight bytes and stops if two of them are the same.

**Theorem (`run_discriminators`).** Let the names of a program be in order, and let the hash of
names give 32 bytes and be arbitrary otherwise. If the run returns, the discriminators of the
instructions are eight bytes each and differ from one another. It stops with a collision exactly if
two instructions have the same discriminator, and then names the first instruction whose
discriminator occurred before and the one that had it (`FirstCollision`). Numbered discriminators
never collide.
-/

namespace AnchorLowering

open List

variable {d : Buffer}

/-! ## The search for a collision -/

namespace Discriminator

/-- The collision of a list: its second entry is the first one whose discriminator occurred before
it, and its first entry is the one that had it. The entries before the second differ from one
another, so there is only one. -/
def FirstCollision (entries : List (Text × Buffer)) (c : Collision) : Prop :=
  ∃ before after, entries = before ++ (c.second, c.discriminator) :: after ∧
    (before.map (·.2)).Nodup ∧ (c.first, c.discriminator) ∈ before

variable {seen entries : List (Text × Buffer)} {c : Collision}

/-- Of entries that differ in their discriminators, the search finds the one that has a given
one. -/
theorem find?_eq_some_of_mem {name : Text} (hseen : (seen.map (·.2)).Nodup)
    (hmem : (name, d) ∈ seen) : seen.find? (fun e => e.2 == d) = some (name, d) := by
  induction seen with
  | nil => cases hmem
  | cons e seen ih =>
    rw [map_cons, nodup_cons] at hseen
    rcases mem_cons.1 hmem with rfl | hmem
    · simp
    · have hne : e.2 ≠ d := by
        rintro rfl
        exact hseen.1 (mem_map_of_mem (f := (·.2)) hmem)
      rw [find?_cons_of_neg (by simpa using hne)]
      exact ih hseen.2 hmem

theorem find?_eq_none_iff : seen.find? (fun e => e.2 == d) = none ↔ d ∉ seen.map (·.2) := by
  simp only [find?_eq_none, beq_iff_eq, mem_map, not_exists, not_and]

theorem nodup_append_singleton {e : Text × Buffer} (hseen : (seen.map (·.2)).Nodup)
    (he : e.2 ∉ seen.map (·.2)) : ((seen ++ [e]).map (·.2)).Nodup := by
  rw [map_append, map_singleton]
  exact nodup_append.2 ⟨hseen, nodup_singleton _, fun a ha b hb => by
    rw [mem_singleton.1 hb]
    rintro rfl
    exact he ha⟩

/-- The search passes a list exactly if the discriminators differ from one another and from those
seen. -/
theorem collisionFrom?_eq_none_iff (hseen : (seen.map (·.2)).Nodup) :
    collisionFrom? seen entries = none ↔ ((seen ++ entries).map (·.2)).Nodup := by
  induction entries generalizing seen with
  | nil => simpa [collisionFrom?] using hseen
  | cons e rest ih =>
    obtain ⟨name, d⟩ := e
    have happend : seen ++ (name, d) :: rest = (seen ++ [(name, d)]) ++ rest := by simp
    rw [collisionFrom?]
    cases hfind : seen.find? fun e => e.2 == d with
    | none =>
      have hfresh := find?_eq_none_iff.1 hfind
      rw [happend]
      exact ih (nodup_append_singleton hseen hfresh)
    | some first =>
      have hd : d ∈ seen.map (·.2) := by
        by_contra hfresh
        rw [find?_eq_none_iff.2 hfresh] at hfind
        cases hfind
      simp only [reduceCtorEq, false_iff]
      intro hnodup
      rw [map_append, map_cons, nodup_append] at hnodup
      exact hnodup.2.2 d hd d mem_cons_self rfl

theorem collisionFrom?_eq_some_iff (hseen : (seen.map (·.2)).Nodup) :
    collisionFrom? seen entries = some c ↔
      ∃ before after, entries = before ++ (c.second, c.discriminator) :: after ∧
        ((seen ++ before).map (·.2)).Nodup ∧ (c.first, c.discriminator) ∈ seen ++ before := by
  induction entries generalizing seen with
  | nil => simp [collisionFrom?]
  | cons e rest ih =>
    obtain ⟨name, d⟩ := e
    rw [collisionFrom?]
    cases hfind : seen.find? fun e => e.2 == d with
    | none =>
      have hfresh := find?_eq_none_iff.1 hfind
      show collisionFrom? (seen ++ [(name, d)]) rest = some c ↔ _
      rw [ih (nodup_append_singleton hseen hfresh)]
      constructor
      · rintro ⟨before, after, rfl, hnodup, hfirst⟩
        exact ⟨(name, d) :: before, after, rfl, by simpa using hnodup, by simpa using hfirst⟩
      · rintro ⟨before, after, hsplit, hnodup, hfirst⟩
        cases before with
        | nil =>
          obtain ⟨hentry, -⟩ := cons.inj hsplit
          obtain ⟨-, rfl⟩ := Prod.mk.inj hentry
          rw [append_nil] at hfirst
          exact absurd (mem_map_of_mem (f := (·.2)) hfirst) hfresh
        | cons e before =>
          obtain ⟨rfl, rfl⟩ := cons.inj hsplit
          exact ⟨before, after, rfl, by simpa using hnodup, by simpa using hfirst⟩
    | some found =>
      obtain ⟨first, d'⟩ := found
      obtain rfl : d' = d := by simpa using find?_some hfind
      have hmem : (first, d') ∈ seen := mem_of_find?_eq_some hfind
      show some (⟨first, name, d'⟩ : Collision) = some c ↔ _
      constructor
      · intro h
        obtain rfl := Option.some.inj h
        exact ⟨[], rest, rfl, by simpa using hseen, by simpa using hmem⟩
      · rintro ⟨before, after, hsplit, hnodup, hfirst⟩
        cases before with
        | nil =>
          obtain ⟨hentry, -⟩ := cons.inj hsplit
          obtain ⟨rfl, rfl⟩ := Prod.mk.inj hentry
          rw [append_nil] at hfirst
          rw [find?_eq_some_of_mem hseen hfirst] at hfind
          obtain ⟨rfl, -⟩ := Prod.mk.inj (Option.some.inj hfind)
          rfl
        | cons e before =>
          obtain ⟨rfl, -⟩ := cons.inj hsplit
          rw [map_append, nodup_append] at hnodup
          exact absurd rfl (hnodup.2.2 d' (mem_map_of_mem (f := (·.2)) hmem) d' mem_cons_self)

theorem collision?_eq_some_iff : collision? entries = some c ↔ FirstCollision entries c :=
  @collisionFrom?_eq_some_iff [] _ _ nodup_nil

theorem collision?_eq_none_iff : collision? entries = none ↔ (entries.map (·.2)).Nodup :=
  @collisionFrom?_eq_none_iff [] _ nodup_nil

/-! ## Lengths and numbers -/

theorem length_ofName {hash : Buffer → Buffer} (hhash : ∀ b, (hash b).length = 32) (name : Text) :
    (ofName hash name).length = size := by
  rw [ofName, length_take, hhash]
  rfl

theorem length_ofIndex (index : Nat) : (ofIndex index).length = size := Buffer.length_ofNat _ _

/-- Numbers that fit in eight bytes have different discriminators. -/
theorem ofIndex_inj {i j : Nat} (hi : i < 2 ^ 64) (hj : j < 2 ^ 64) (h : ofIndex i = ofIndex j) :
    i = j := by
  have hlimit : 256 ^ size = 2 ^ 64 := by decide
  have hvalue := congrArg Buffer.toNat h
  rwa [ofIndex, ofIndex, Buffer.toNat_ofNat (hlimit ▸ hi), Buffer.toNat_ofNat (hlimit ▸ hj)]
    at hvalue

end Discriminator

/-! ## Runs -/

namespace Lowering.Lowerer

open Discriminator

variable {ε : Type} (l : Lowerer ε) (p : Program) (facts : Facts)

/-- The names of a program's instructions with their discriminators. -/
def entries : List (Text × Buffer) :=
  p.instructions.zipIdx.map fun ix => (ix.1.name, l.discriminator ix.1.name ix.2)

/-- Two instructions of a program have the same discriminator. -/
def SharesDiscriminator : Prop :=
  ∃ i j ix ix', i < j ∧ p.instructions[i]? = some ix ∧ p.instructions[j]? = some ix' ∧
    l.discriminator ix.name i = l.discriminator ix'.name j

theorem getElem?_entries (i : Nat) :
    (l.entries p)[i]? = p.instructions[i]?.map fun ix => (ix.name, l.discriminator ix.name i) := by
  rw [entries, getElem?_map, getElem?_zipIdx, Option.map_map, Nat.zero_add]
  rfl

theorem nodup_entries_iff : ((l.entries p).map (·.2)).Nodup ↔ ¬ l.SharesDiscriminator p := by
  have hdiscriminator : ∀ i, ((l.entries p).map (·.2))[i]? =
      p.instructions[i]?.map fun ix => l.discriminator ix.name i := by
    intro i
    rw [getElem?_map, getElem?_entries, Option.map_map]
    rfl
  have hlength : ((l.entries p).map (·.2)).length = p.instructions.length := by simp [entries]
  rw [nodup_iff_getElem?_ne_getElem?, hlength]
  constructor
  · rintro hne ⟨i, j, ix, ix', hij, hi, hj, heq⟩
    obtain ⟨hlt, -⟩ := List.getElem?_eq_some_iff.1 hj
    refine hne i j hij hlt ?_
    rw [hdiscriminator, hdiscriminator, hi, hj, Option.map_some, Option.map_some, heq]
  · intro hnot i j hij hj heq
    rw [hdiscriminator, hdiscriminator, getElem?_eq_getElem hj,
      getElem?_eq_getElem (Nat.lt_trans hij hj), Option.map_some, Option.map_some] at heq
    exact hnot ⟨i, j, _, _, hij, getElem?_eq_getElem _, getElem?_eq_getElem hj, Option.some.inj heq⟩

theorem length_discriminator (hhash : ∀ b, (l.hash b).length = 32) (name : Text) (index : Nat) :
    (l.discriminator name index).length = size := by
  unfold discriminator
  split
  · exact length_ofName hhash name
  · exact length_ofIndex index

theorem not_sharesDiscriminator (hcompat : l.config.anchorCompat = false)
    (hcount : p.instructions.length ≤ 2 ^ 64) : ¬ l.SharesDiscriminator p := by
  rintro ⟨i, j, ix, ix', hij, -, hj, heq⟩
  obtain ⟨hlt, -⟩ := List.getElem?_eq_some_iff.1 hj
  simp only [discriminator, hcompat, Bool.false_eq_true, if_false] at heq
  have := ofIndex_inj (by omega) (by omega) heq
  omega

section Instructions

variable {l p facts} {ix : Instruction} {index : Nat}

theorem lowerInstruction_ok {target : TargetInstruction}
    (h : l.lowerInstruction p facts ix index = .ok target) :
    target.name = ix.name ∧ target.discriminator = l.discriminator ix.name index ∧
    target.failed = false := by
  simp only [lowerInstruction, bind, Except.bind] at h
  split at h
  · cases h
  · cases h
    exact ⟨rfl, rfl, rfl⟩

variable (l p facts ix index)

theorem name_lowerContained : (l.lowerContained p facts ix index).name = ix.name := by
  unfold lowerContained
  cases h : l.lowerInstruction p facts ix index with
  | error failure => rfl
  | ok target => exact (lowerInstruction_ok h).1

/-- An instruction has its discriminator whether its body is lowered or fails. -/
theorem discriminator_lowerContained :
    (l.lowerContained p facts ix index).discriminator = l.discriminator ix.name index := by
  unfold lowerContained
  cases h : l.lowerInstruction p facts ix index with
  | error failure => rfl
  | ok target => exact (lowerInstruction_ok h).2.1

end Instructions

/-- The instructions of a program, each lowered on its own. -/
def lowerEach : List TargetInstruction :=
  p.instructions.zipIdx.map fun ix => l.lowerContained p facts ix.1 ix.2

theorem map_lowerEach :
    (l.lowerEach p facts).map (fun ix => (ix.name, ix.discriminator)) = l.entries p := by
  rw [lowerEach, entries, map_map]
  refine map_congr_left fun ix _ => ?_
  rw [Function.comp_apply, name_lowerContained, discriminator_lowerContained]

section Outcomes

variable {l p facts}

theorem run_eq_badName_iff {error : NamingError} :
    l.run p facts = .error (.badName error) ↔ p.checkNames = .error error := by
  unfold run
  cases hnames : p.checkNames with
  | error other => simp
  | ok u =>
    simp only [reduceCtorEq, iff_false]
    split <;> simp

theorem run_eq_collision_iff (hnames : p.checkNames = .ok ()) {c : Collision} :
    l.run p facts = .error (.collision c) ↔ FirstCollision (l.entries p) c := by
  unfold run
  rw [hnames, ← collision?_eq_some_iff, ← map_lowerEach l p facts, lowerEach]
  dsimp only
  split <;> simp_all

theorem run_eq_ok {target : TargetProgram} (h : l.run p facts = .ok target) :
    target.instructions = l.lowerEach p facts ∧ ¬ l.SharesDiscriminator p := by
  rw [← nodup_entries_iff, ← collision?_eq_none_iff, ← map_lowerEach l p facts, lowerEach]
  unfold run at h
  split at h
  · cases h
  · dsimp only at h
    split at h
    · cases h
    · rename_i hnone
      cases h
      exact ⟨rfl, hnone⟩

/-- A run returns if the names are in order and the discriminators differ. -/
theorem exists_run_eq_ok (hnames : p.checkNames = .ok ()) (hshares : ¬ l.SharesDiscriminator p) :
    ∃ target, l.run p facts = .ok target := by
  rw [← nodup_entries_iff, ← collision?_eq_none_iff, ← map_lowerEach l p facts, lowerEach]
    at hshares
  unfold run
  rw [hnames]
  dsimp only
  rw [hshares]
  exact ⟨_, rfl⟩

end Outcomes

/-- **Discriminators identify instructions.** -/
theorem run_discriminators (hhash : ∀ b, (l.hash b).length = 32) (hnames : p.checkNames = .ok ()) :
    (∀ target, l.run p facts = .ok target →
      (∀ ix ∈ target.instructions, ix.discriminator.length = 8) ∧
      (target.instructions.map (·.discriminator)).Nodup) ∧
    ((∃ c, l.run p facts = .error (.collision c)) ↔ l.SharesDiscriminator p) ∧
    (∀ c, l.run p facts = .error (.collision c) ↔ FirstCollision (l.entries p) c) ∧
    (l.config.anchorCompat = false → p.instructions.length ≤ 2 ^ 64 →
      ∀ c, l.run p facts ≠ .error (.collision c)) := by
  have hcollides : (∃ c, l.run p facts = .error (.collision c)) ↔ l.SharesDiscriminator p := by
    simp only [run_eq_collision_iff hnames, ← collision?_eq_some_iff]
    rw [← not_iff_not, ← nodup_entries_iff, ← collision?_eq_none_iff,
      Option.eq_none_iff_forall_ne_some, not_exists]
  refine ⟨fun target h => ?_, hcollides, fun c => run_eq_collision_iff hnames, ?_⟩
  · obtain ⟨hinstructions, hshares⟩ := run_eq_ok h
    refine ⟨fun ix hix => ?_, ?_⟩
    · rw [hinstructions, lowerEach] at hix
      obtain ⟨source, -, rfl⟩ := List.mem_map.1 hix
      rw [discriminator_lowerContained]
      exact l.length_discriminator hhash _ _
    · have hmap : target.instructions.map (·.discriminator) = (l.entries p).map (·.2) := by
        rw [hinstructions, ← map_lowerEach l p facts, List.map_map]
        rfl
      rw [hmap]
      exact (l.nodup_entries_iff p).2 hshares
  · intro hcompat hcount c hc
    exact l.not_sharesDiscriminator p hcompat hcount (hcollides.1 ⟨c, hc⟩)

/-- Two instructions whose names have the same form in lower case with underscores. -/
def echoProgram : Program where
  name := "echo"
  programId := none
  instructions := [⟨"doThing", "A", [], .str []⟩, ⟨"other", "A", [], .str []⟩,
    ⟨"do_thing", "A", [], .str []⟩]
  groups := []
  records := []
  errors := []

/-- Under the hash of names the third instruction meets the first one; numbered ones do not meet. -/
theorem run_discriminators_echo :
    echoProgram.checkNames = .ok () ∧
    (standard .standard).run echoProgram ⟨[], [], []⟩ =
      .error (.collision ⟨"doThing", "do_thing", ofName Sha256.hash "do_thing"⟩) ∧
    ∀ c, (standard { Config.standard with anchorCompat := false }).run echoProgram ⟨[], [], []⟩ ≠
      .error (.collision c) := by
  have hnames : echoProgram.checkNames = .ok () := by rfl
  have hsnake : snakeCase "doThing" = snakeCase "do_thing" := by decide
  have hsame : ofName Sha256.hash "doThing" = ofName Sha256.hash "do_thing" := by
    rw [ofName, ofName, hsnake]
  refine ⟨hnames, ?_, ?_⟩
  · refine ((run_discriminators (standard .standard) echoProgram ⟨[], [], []⟩ Sha256.length_hash
      hnames).2.2.1 _).2 ⟨[("doThing".toList, ofName Sha256.hash "doThing"),
        ("other".toList, ofName Sha256.hash "other")], [], ?_, ?_, ?_⟩
    · rfl
    · decide +kernel
    · rw [hsame]
      exact List.mem_cons_self
  · exact (run_discriminators (standard { Config.standard with anchorCompat := false }) echoProgram
      ⟨[], [], []⟩ Sha256.length_hash hnames).2.2.2 rfl (by decide)

end Lowering.Lowerer

end AnchorLowering
