import FuncScript.Service.Address

namespace FuncScript

inductive Method where
  | get
  | head
  | post
  | options
  | other (name : String)
  deriving DecidableEq, Repr

def Method.ofString : String → Method
  | "GET" => .get
  | "HEAD" => .head
  | "POST" => .post
  | "OPTIONS" => .options
  | name => .other name

inductive RequestBody where
  | complete (bytes : ByteArray)
  | broken (cause : String)

structure Request where
  method : Method
  target : String
  body : RequestBody
  address : Address

def afterHost : List Char → Option (List Char)
  | ':' :: '/' :: '/' :: rest => some (rest.dropWhile fun c => c ≠ '/' && c ≠ '?' && c ≠ '#')
  | '/' :: _ => none
  | '?' :: _ => none
  | _ :: rest => afterHost rest
  | [] => none

/-- The path alone; an empty one is the root. -/
def Request.path (r : Request) : String :=
  let target := r.target.toList
  let path := ((afterHost target).getD target).takeWhile fun c => c ≠ '?' && c ≠ '#'
  if path.isEmpty then "/" else String.ofList path

structure Response where
  status : Nat
  body : String
  contentType : Option String
  allowOrigin : Option String
  allowMethods : Option String
  allowHeaders : Option String
  deriving DecidableEq, Repr

def Response.withoutBody (r : Response) : Response := { r with body := "" }

end FuncScript
