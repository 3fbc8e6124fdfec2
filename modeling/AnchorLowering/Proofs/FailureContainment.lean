import AnchorLowering.Proofs.InstructionDiscriminators
import AnchorLowering.Proofs.MarkerText

/-!
# Failures are contained

A body that cannot be lowered spoils its own instruction only. The names of a program are checked
before any body is touched, and these checks are the only other thing that stops a run with numbered
discriminators.

**Theorem (`run_contains_failures`).** Let bodies be lowered by any procedure, which may fail on any
of them with any message, and let discriminators be numbered. The run stops at a bad name exactly if
the names of the program are not in order. Otherwise it returns one instruction per source
instruction, in order and under the same name. Each is what its source lowers to alone; if that
fails, it is a marker with one issue, without accounts and guards (`Contained`).
-/

namespace AnchorLowering.Lowering

open List Source

/-- An instruction that stands in for one that failed: its body is a marker with the reason, which
is the only issue. -/
structure Contained (t : TargetInstruction) (reason : Text) : Prop where
  failed : t.failed = true
  accounts : t.accounts = []
  guards : t.guards = []
  body : t.body = Marker.render "transform" reason
  collected : t.issues = Marker.collect t.body
  issues : t.issues = [⟨"transform", Marker.quote reason⟩]

namespace Lowerer

variable {ε : Type} (l : Lowerer ε) (p : Program) (facts : Facts)

theorem contained_failedInstruction (ix : Instruction) (index : Nat) (failure : ε) :
    Contained (l.failedInstruction ix index failure) (l.describeFailure failure) := by
  have hstep : IsName "transform".toList := by decide
  unfold failedInstruction
  have hissues := Marker.collect_render hstep (l.describeFailure failure)
  generalize hbody : Marker.render "transform".toList (l.describeFailure failure) = body
    at hissues ⊢
  exact ⟨rfl, rfl, rfl, hbody.symm, rfl, hissues⟩

theorem getElem?_lowerEach {i : Nat} {ix : Instruction} (h : p.instructions[i]? = some ix) :
    (l.lowerEach p facts)[i]? = some (l.lowerContained p facts ix i) := by
  rw [lowerEach, getElem?_map, getElem?_zipIdx, h, Nat.zero_add]
  rfl

theorem map_name_lowerEach : (l.lowerEach p facts).map (·.name) = p.instructions.map (·.name) := by
  apply ext_getElem?
  intro i
  rw [getElem?_map, getElem?_map]
  cases h : p.instructions[i]? with
  | none =>
    rw [lowerEach, getElem?_map, getElem?_zipIdx, h]
    rfl
  | some ix =>
    rw [l.getElem?_lowerEach p facts h, Option.map_some, Option.map_some, name_lowerContained]

theorem exists_badName_iff :
    (∃ error, l.run p facts = .error (.badName error)) ↔ ¬ p.WellNamed := by
  simp only [run_eq_badName_iff, ← p.checkNames_eq_ok_iff]
  cases p.checkNames with
  | error e => simp
  | ok u => simp

/-- **Failures are contained, and only names stop a run.** -/
theorem run_contains_failures (hcompat : l.config.anchorCompat = false)
    (hcount : p.instructions.length ≤ 2 ^ 64) :
    ((∃ error, l.run p facts = .error (.badName error)) ↔ ¬ p.WellNamed) ∧
    (p.WellNamed → ∃ target, l.run p facts = .ok target ∧
      target.instructions.map (·.name) = p.instructions.map (·.name) ∧
      ∀ i ix, p.instructions[i]? = some ix → ∃ t, target.instructions[i]? = some t ∧
        (∀ alone, l.lowerInstruction p facts ix i = .ok alone → t = alone ∧ t.failed = false) ∧
        (∀ failure, l.lowerInstruction p facts ix i = .error failure →
          Contained t (l.describeFailure failure))) := by
  refine ⟨l.exists_badName_iff p facts, fun hnames => ?_⟩
  obtain ⟨target, hrun⟩ : ∃ target, l.run p facts = .ok target :=
    exists_run_eq_ok (p.checkNames_eq_ok_iff.2 hnames) (l.not_sharesDiscriminator p hcompat hcount)
  obtain ⟨hinstructions, -⟩ := run_eq_ok hrun
  refine ⟨target, hrun, ?_, fun i ix hix => ⟨l.lowerContained p facts ix i, ?_, ?_, ?_⟩⟩
  · rw [hinstructions, map_name_lowerEach]
  · rw [hinstructions, l.getElem?_lowerEach p facts hix]
  · intro alone halone
    rw [lowerContained, halone]
    exact ⟨rfl, (lowerInstruction_ok halone).2.2⟩
  · intro failure hfailure
    rw [lowerContained, hfailure]
    exact l.contained_failedInstruction ix i failure

/-- A lowerer with numbered discriminators that fails on empty bodies, with a message that would
close a comment. -/
def picky : Lowerer Unit where
  config := { Config.standard with anchorCompat := false }
  lowerBody := fun _ body => if body.isEmpty then .error () else .ok body
  describeFailure := fun _ => "Empty: */ no\nbody"
  hash := Sha256.hash

/-- A program with an empty body between two others. -/
def threeProgram : Program where
  name := "three"
  programId := none
  instructions := [⟨"first", "A", [], .str "Ok(())"⟩, ⟨"empty", "A", [], .str []⟩,
    ⟨"last", "A", [], .str "{ Ok(1) }"⟩]
  groups := []
  records := []
  errors := []

theorem run_contains_failures_three :
    picky.config.anchorCompat = false ∧ threeProgram.instructions.length ≤ 2 ^ 64 ∧
    threeProgram.WellNamed ∧
    ∃ target, picky.run threeProgram ⟨[], [], []⟩ = .ok target ∧
      target.instructions.map (·.name) = ["first".toList, "empty".toList, "last".toList] ∧
      (∃ t, target.instructions[0]? = some t ∧ t.failed = false) ∧
      (∃ t, target.instructions[1]? = some t ∧ Contained t "Empty: */ no\nbody") ∧
      (∃ t, target.instructions[2]? = some t ∧ t.failed = false) := by
  have hnames : threeProgram.WellNamed := threeProgram.checkNames_eq_ok_iff.1 rfl
  have hcount : threeProgram.instructions.length ≤ 2 ^ 64 := by decide
  obtain ⟨target, hrun, hmap, hall⟩ :=
    (run_contains_failures picky threeProgram ⟨[], [], []⟩ rfl hcount).2 hnames
  obtain ⟨first, hfirst, hok, -⟩ := hall 0 _ rfl
  obtain ⟨empty, hempty, -, hbad⟩ := hall 1 _ rfl
  obtain ⟨last, hlast, hok', -⟩ := hall 2 _ rfl
  exact ⟨rfl, hcount, hnames, target, hrun, hmap, ⟨first, hfirst, (hok _ rfl).2⟩,
    ⟨empty, hempty, hbad () rfl⟩, ⟨last, hlast, (hok' _ rfl).2⟩⟩

end Lowerer

end AnchorLowering.Lowering
