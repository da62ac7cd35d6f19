import AquaTransport.Lib.Uri
import AquaTransport.Gsa.Url

/-!
# AquaTransport.Gsa.Absolute — an `NSURL` and the string it was read from

`UrlReader.Reads N url u a` says that the components of `url` are those of its absolute string, whose
pieces are `u` and, in its authority, `a`.
-/

namespace AquaTransport

/-- How Foundation reads the text of a host and of a userinfo. -/
structure UrlReader where
  host : NSString → Option NSString
  user : NSString → Option NSString
  password : NSString → Option NSString
  /-- Without escapes, a host is its text. -/
  host_plain : ∀ h, h ≠ [] → 37 ∉ h → host h = some h

/-- A reader for texts without escapes and passwords. -/
def UrlReader.unescaped : UrlReader where
  host := some
  user := some
  password := fun _ => none
  host_plain := fun _ _ _ => rfl

structure UrlReader.Reads (N : UrlReader) (url : NSURL) (u : Uri) (a : Authority) : Prop where
  wellFormed : u.WellFormed
  valid : a.WellFormed
  text : url.absoluteString = u.text
  authority : u.authority = a.text
  scheme : url.scheme = some u.scheme
  user : url.user = a.user.bind N.user
  password : url.password = a.user.bind N.password
  host : url.host = N.host a.host
  port : url.port = a.number

/-- The URL that a string is read as. -/
def UrlReader.url (N : UrlReader) (s : NSString) : NSURL :=
  let u := Uri.read s
  let a := Authority.read u.authority
  { absoluteString := s, scheme := some u.scheme, user := a.user.bind N.user,
    password := a.user.bind N.password, host := N.host a.host, port := a.number, path := u.path,
    query := u.query, fragment := u.fragment }

theorem UrlReader.url_reads (N : UrlReader) {u : Uri} {a : Authority} (hu : u.WellFormed)
    (ha : a.WellFormed) (h : u.authority = a.text) : N.Reads (N.url u.text) u a := by
  have hread : Authority.read (Uri.read u.text).authority = a := by
    rw [Uri.read_text hu, h, Authority.read_text ha]
  refine ⟨hu, ha, rfl, h, ?_, ?_, ?_, ?_, ?_⟩
  · exact congrArg (fun v => some (Uri.scheme v)) (Uri.read_text hu)
  · exact congrArg (fun b => (Authority.user b).bind N.user) hread
  · exact congrArg (fun b => (Authority.user b).bind N.password) hread
  · exact congrArg (fun b => N.host (Authority.host b)) hread
  · exact congrArg Authority.number hread

namespace UrlReader.Reads

variable {N : UrlReader} {url : NSURL} {u : Uri} {a : Authority}

/-- A plain authority is the host. -/
theorem host_of_plain (h : N.Reads url u a) (hne : u.authority ≠ [])
    (hp : ∀ c ∈ u.authority, c ∉ str "@:%") : url.host = some u.authority := by
  have hat : Authority.atSign ∉ a.text := fun hc => hp 64 (h.authority ▸ hc) (by decide)
  have hcolon : Uri.colon ∉ a.text := fun hc => hp 58 (h.authority ▸ hc) (by decide)
  rw [h.host, Authority.eq_host hat hcolon, ← h.authority]
  exact N.host_plain _ hne fun hc => hp 37 hc (by decide)

end UrlReader.Reads

end AquaTransport
