import AnchorLowering.Proofs.AliasBinding
import AnchorLowering.Proofs.OperationRun
import AnchorLowering.Proofs.RecordContext
import AnchorLowering.Proofs.SequenceRules

/-!
# What comments do to the lowering of sequences

The text of a comment should not matter to how code is lowered. It does matter, in these ways:

- The search for operations runs over the whole text. A match that starts in a comment can go on
  into code and hide the operation that stands there.
- The last character of a line comment can make what follows look like the start of a statement.
- A line comment at the end of an argument list loses the line break that ends it, and what is
  written after the arguments becomes a part of it.
- A literal right after a call can be read otherwise when the call is replaced, and a comment behind
  it is then no longer one.

**Theorem (`lowerSequences_alikeButComments`).** Where comments are apart from operations, bodies
that differ in the characters of comments only are lowered alike. Each of the conditions is needed
(`comments_reach_code`).
-/

namespace AnchorLowering.Lowering

open Pattern Source

/-! ## Comments apart from code -/

def codeStretches (t : Text) : List Text := ((segments t).filter (·.isCode)).map (·.text)

theorem codeStretches_of_alike {t t' : Text} (h : AlikeButComments t t') :
    codeStretches t = codeStretches t' := by
  rw [codeStretches, codeStretches]
  rw [AlikeButComments] at h
  generalize segments t = ss at h ⊢
  generalize segments t' = ss' at h ⊢
  induction h with
  | nil => rfl
  | @cons s s' ss ss' hs _ ih =>
    obtain rfl | ⟨hcode, hcode', -⟩ := hs
    · cases hcode : s.isCode <;> simp [hcode, ih]
    · simpa [hcode, hcode'] using ih

/-- No line comment of a body ends where one of its operations seems to start a statement, or where
its arguments end. -/
abbrev LinesApart (c : Context) (body : Text) : Prop :=
  OperationsApart ⟨c, c.aliases body, []⟩ body (Source.findAll sequenceCall body)

abbrev QuotesApart (body : Text) : Prop := List.IsChain Apart (Text.pieces sealedClaim body)

/-- The comments of a body are apart from what is lowered: no operation in code is hidden by one
that is read from inside a comment, and line comments and quotes are apart from operations. -/
@[mk_iff]
structure CommentsApart (c : Context) (body : Text) : Prop where
  operations : HidesNothing sequenceCall body
  lines : LinesApart c body
  quotes : QuotesApart body

instance (c : Context) (body : Text) : Decidable (CommentsApart c body) :=
  decidable_of_iff _ (commentsApart_iff ..).symm

/-! ## The lowering -/

/-- **Comments do not matter where they are apart.** Two bodies with the same code and the same
literals at the same places, which may differ in the characters of comments, are lowered to two such
bodies. -/
theorem lowerSequences_alikeButComments (instruction : Text) (accounts : List AccountSlot)
    (layouts : Table RecordLayout) (derived : List DerivedAccount) (config : Config)
    (hheap : config.noAlloc = false) {body body' : Text} (h : AlikeButComments body body')
    (hapart : CommentsApart (Context.build instruction accounts layouts derived config) body)
    (hapart' : CommentsApart (Context.build instruction accounts layouts derived config) body') :
    AlikeButComments
        (lowerSequences (Context.build instruction accounts layouts derived config) body)
        (lowerSequences (Context.build instruction accounts layouts derived config) body') ∧
      codeStretches
        (lowerSequences (Context.build instruction accounts layouts derived config) body) =
        codeStretches
          (lowerSequences (Context.build instruction accounts layouts derived config) body') := by
  have hcounted := counted_build instruction accounts layouts derived config
  have hconfig : (Context.build instruction accounts layouts derived config).config.noAlloc =
      false :=
    hheap
  generalize Context.build instruction accounts layouts derived config = c at *
  suffices halike : AlikeButComments (lowerSequences c body) (lowerSequences c body') from
    ⟨halike, codeStretches_of_alike halike⟩
  have haliases : c.aliases body' = c.aliases body := by
    rw [Context.aliases, Context.aliases, findAll_congr stopsAt_aliasBinding
      startsWithWord_aliasBinding h (hidesNothing_aliasBinding body)
        (hidesNothing_aliasBinding body')]
  have hlines' := hapart'.lines
  rw [LinesApart, haliases] at hlines'
  obtain ⟨halike, hquotes, hquotes'⟩ :=
    lowerOperations_alike hcounted rfl h hapart.quotes hapart'.quotes
    hapart.operations hapart'.operations hapart.lines hlines'
  have hloops := reshapes_loopHead (s := ⟨c, c.aliases body, []⟩) hcounted rfl
  have hresets := reshapes_resetAssignment (s := ⟨c, c.aliases body, []⟩) hcounted rfl
  have hlooped := replaceInCode_alike hloops halike hquotes hquotes'
  simp only [lowerSequences, hconfig, Bool.false_eq_true, if_false, lowerInScope, haliases]
  exact replaceInCode_alike hresets hlooped (pieces_replaceInCode hloops hquotes).2
    (pieces_replaceInCode hloops hquotes').2

/-! ## One bounded sequence -/

def poolLayout : RecordLayout where
  name := "Pool"
  size := 41
  fields := [⟨"items", "Vec<u64>", 33, 8, some (.count 4), 8, 1⟩]
  assumptions := []

/-- The context of an instruction with that account alone. -/
def poolContext : Context := recordContext poolLayout ["pool"]

theorem lowerSequences_alikeButComments_pool :
    CommentsApart poolContext "// a\npool.items.push(x /*b.*/); // c;" ∧
    CommentsApart poolContext "// A\npool.items.push(x /*--*/); // /*" ∧
    AlikeButComments (lowerSequences poolContext "// a\npool.items.push(x /*b.*/); // c;")
        (lowerSequences poolContext "// A\npool.items.push(x /*--*/); // /*") ∧
      codeStretches (lowerSequences poolContext "// a\npool.items.push(x /*b.*/); // c;") =
        codeStretches (lowerSequences poolContext "// A\npool.items.push(x /*--*/); // /*") := by
  have hapart : CommentsApart poolContext "// a\npool.items.push(x /*b.*/); // c;" := by
    decide +kernel
  have hapart' : CommentsApart poolContext "// A\npool.items.push(x /*--*/); // /*" := by
    decide +kernel
  exact ⟨hapart, hapart', lowerSequences_alikeButComments [] [recordAccount "Pool" "pool"]
    [("Pool", poolLayout)] [] .standard rfl (by decide +kernel) hapart hapart'⟩

/-! ## Comments that reach code -/

/-- The bodies are alike but for comments, and are lowered to different code. -/
def CommentsMatter (c : Context) (body body' : Text) : Prop :=
  AlikeButComments body body' ∧
    codeStretches (lowerSequences c body) ≠ codeStretches (lowerSequences c body')

instance (c : Context) (body body' : Text) : Decidable (CommentsMatter c body body') :=
  inferInstanceAs (Decidable (_ ∧ _))

/-- **Each condition is needed.** A comment hides an operation, makes an expression look like a
statement, takes in the rest of an operation, or turns into code behind a literal, while the other
conditions hold. -/
theorem comments_reach_code :
    (∃ body body', CommentsMatter poolContext body body' ∧ ∀ b ∈ [body, body'],
      LinesApart poolContext b ∧ QuotesApart b) ∧
    (∃ body body', CommentsMatter poolContext body body' ∧ ∀ b ∈ [body, body'],
      HidesNothing sequenceCall b ∧ QuotesApart b) ∧
    (∃ body body', CommentsMatter poolContext body body' ∧ ∀ b ∈ [body, body'],
      HidesNothing sequenceCall b ∧ LinesApart poolContext b) :=
  ⟨⟨"// a.\npool.items.push(x);", "// a,\npool.items.push(x);", by decide +kernel⟩,
    ⟨"// a;\npool.items.push(x);", "// a,\npool.items.push(x);", by decide +kernel⟩,
    ⟨"pool.items.clear()r\"\\\"//\"a", "pool.items.clear()r\"\\\"//\"b", by decide +kernel⟩⟩

end AnchorLowering.Lowering
