import AnchorLowering.Lowering.Context
import AnchorLowering.Source.Marker

/-!
# Account accesses

A handler reaches its accounts and bumps through `ctx`; the target has them as locals. Each access
becomes the local's name, and conversions to account infos are dropped. The collection of accounts
as a whole has no counterpart and is marked.
-/

namespace AnchorLowering.Lowering

open Pattern Source

def bumpName (account : Text) : Text := account ++ "_bump".toList

def ctxPart (part : String) : Pattern Unit := do
  wordBoundary
  tokens ["ctx", ".", part.toList]

/-- An access through `ctx` to a member of the named part, read as the member. -/
def ctxMember (part : String) : Pattern Text := do
  ctxPart part
  spaced "."
  capture word

def bumpLookup : Pattern Text := do
  wordBoundary
  tokens ["ctx", ".", "bumps", ".", "get", "("]
  blanks
  lit "\""
  let account ← capture word
  lit "\""
  blanks
  lit ")"
  let _ ← opt (do spaced "."; tokens ["unwrap", "(", ")"])
  pure (bumpName account)

/-- The rules for accesses through `ctx`, in the order in which they run. A bump in quotes comes
before a bump as a member, which it would else be read as. -/
def accessRules : List (Pattern Text) :=
  [bumpLookup,
   (do return bumpName (← ctxMember "bumps")),
   ctxMember "accounts",
   (do ctxPart "program_id"; wordBoundary; return "program_id"),
   (do ctxPart "remaining_accounts"; wordBoundary; return "remaining_accounts"),
   (do blanks; tokens [".", "to_account_info", "(", ")"]; return [])]

def flattenAccess (t : Text) : Text := accessRules.foldl (fun t rule => replaceFromCode rule t) t

/-- What is left of `ctx.accounts` without a member, replaced by a marker. -/
def leftoverAccounts : Pattern Text := do
  let fragment ← capture do
    let _ ← opt (lit "&")
    blanks
    ctxPart "accounts"
    wordBoundary
  pure (Marker.render "context" fragment)

def lowerAccess (body : Text) : Text := replaceInCode leftoverAccounts (flattenAccess body)

end AnchorLowering.Lowering
