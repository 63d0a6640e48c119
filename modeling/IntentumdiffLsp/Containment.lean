import IntentumdiffLsp.Sessions

/-!
Which files a session touches, and what the engine is told about them.
-/

namespace IntentumdiffLsp.Containment

open Foundations
open Foundations.UnixPath
open IntentumdiffLsp.Json
open IntentumdiffLsp.UriPath
open IntentumdiffLsp.Server
open IntentumdiffLsp.Sessions

/-- Both URIs resolve below the root, and the call is about the files they name. -/
def Justified (host : Host) (root : Path) (uris : String × String) (call : Call) : Prop :=
  ∃ old new, uriToPath host uris.1 (some root) = .ok old ∧
    uriToPath host uris.2 (some root) = .ok new ∧
    (call = .read old ∨ call = .read new ∨
      ∃ below, stripBase new root = some below ∧ call = .diff new (relOf below))

section Calls

variable {ctx : Context} {now : Env} {server : ServerState} {root : Path} {call : Call}

theorem sameFile_justified {uri : String} (h : call ∈ (sameFile ctx now server root uri).1) :
    Justified ctx.host root (uri, uri) call := by
  rcases hpath : uriToPath ctx.host uri (some root) with _ | path
  · simp [sameFile, hpath] at h
  · refine ⟨path, path, hpath, hpath, ?_⟩
    have hreads : call ∈ (if (server.contentCache uri).isSome then [] else [Call.read path]) →
        call = .read path := by
      split
      · exact fun hmem => absurd hmem List.not_mem_nil
      · exact List.mem_singleton.mp
    simp only [sameFile, hpath] at h
    split at h
    · exact .inl (hreads h)
    · split at h
      · exact .inl (hreads h)
      · rename_i below hbelow
        rcases List.mem_append.mp h with hread | hdiff
        · exact .inl (hreads hread)
        · exact .inr (.inr ⟨below, hbelow, List.mem_singleton.mp hdiff⟩)

theorem twoFiles_justified {oldUri newUri : String}
    (h : call ∈ (twoFiles ctx now server root oldUri newUri).1) :
    Justified ctx.host root (oldUri, newUri) call := by
  rcases hold : uriToPath ctx.host oldUri (some root) with _ | old
  · simp [twoFiles, hold] at h
  rcases hnew : uriToPath ctx.host newUri (some root) with _ | new
  · simp [twoFiles, hold, hnew] at h
  · refine ⟨old, new, hold, hnew, ?_⟩
    have hpair : call ∈ [Call.read old, Call.read new] → call = .read old ∨ call = .read new := by
      simp
    simp only [twoFiles, hold, hnew] at h
    split at h
    · exact .inl (List.mem_singleton.mp h)
    · split at h
      · exact (hpair h).imp_right .inl
      · exact (hpair h).imp_right .inl

theorem semanticDiffRequest_justified {params : Value}
    (h : call ∈ (semanticDiffRequest ctx now server params).1) :
    ∃ root, server.root = some root ∧
      Justified ctx.host root (uriParam params "oldUri", uriParam params "newUri") call := by
  unfold semanticDiffRequest at h
  dsimp only at h
  split at h
  · exact absurd h List.not_mem_nil
  · split at h
    · exact absurd h List.not_mem_nil
    · rename_i root hroot
      refine ⟨root, hroot, ?_⟩
      dsimp only at h
      split at h
      · rename_i hsame
        rw [hsame]
        exact sameFile_justified h
      · exact twoFiles_justified h

theorem servedDiff_justified {uri : String} (h : call ∈ (servedDiff ctx now server uri).1) :
    ∃ root, server.root = some root ∧ Justified ctx.host root (uri, uri) call := by
  unfold servedDiff at h
  split at h
  · rename_i root content hroot _
    refine ⟨root, hroot, ?_⟩
    split at h
    · exact absurd h List.not_mem_nil
    · rename_i path hpath
      split at h
      · exact absurd h List.not_mem_nil
      · rename_i below hbelow
        exact ⟨path, path, hpath, hpath, .inr (.inr ⟨below, hbelow, List.mem_singleton.mp h⟩)⟩
  · exact absurd h List.not_mem_nil

end Calls

section Sessions

variable {ctx : Context} {now : Env} {events : List Event} {event : Event}

variable (hcwd : isAbsolute ctx.host.currentDir = true)
include hcwd

variable (hparent : .parentDir ∉ components ctx.host.currentDir)
include hparent

end Sessions

end IntentumdiffLsp.Containment
