import ProcessForge.Bonita.Connector
import ProcessForge.Json.Printer

/-! Connectors for calls. What a descriptor does not say gets a default. -/

namespace ProcessForge.Bonita

open Xml

def callDefinition (method : String) : String :=
  match Text.upper (Text.trim method) with
  | "GET" => "rest-get"
  | "PUT" => "rest-put"
  | "PATCH" => "rest-patch"
  | "DELETE" => "rest-delete"
  | "HEAD" => "rest-head"
  | "OPTIONS" => "rest-options"
  | _ => "rest-post"

/-- The method of a request: a text, or nothing. -/
def methodOf (v : Option Json) : Except Failure String :=
  match v with
  | none => .ok "POST"
  | some (.str s) => .ok (if s.isEmpty then "POST" else s)
  | some v => if v.isBlank then .ok "POST" else .error .unusableValue

/-- Value of a header; small and capital letters are the same. -/
def headerValue? (headers : Json) (name : String) : Option String :=
  match headers with
  | .obj members => members.findSome? fun (key, v) =>
    if Text.lower key == Text.lower name then v.text? else none
  | _ => none

/-- The charset among the parts of a content type; the last one counts. -/
def charsetOf (parts : List (List Char)) : String :=
  parts.foldl (fun found part =>
    let part := Text.trimChars part
    let size := "charset=".length
    if Text.lower (String.ofList part) |>.startsWith "charset=" then
      String.ofList (Text.trimChars (part.drop size))
    else found) ""

def splitContentType (type : Option String) : String × String :=
  match Text.splitAtChar ';' (type.getD "").toList with
  | [] => ("application/json", "UTF-8")
  | first :: rest =>
    let media := String.ofList (Text.trimChars first)
    let charset := charsetOf rest
    (if media.isEmpty then "application/json" else media,
      if charset.isEmpty then "UTF-8" else charset)

/-- The text of a body: a text as it is, another value as compact JSON. -/
def bodyText? : Option Json → Option String
  | none | some .null => none
  | some (.str s) => some s
  | some v => some (v.render .compact)

def callDefaults : List (String × Draft) := [("urlCookies", table), ("urlHeaders", table),
  ("add_bonita_context_headers", truth false),
  ("bonita_activity_instance_id_header", constant "X-Bonita-Activity-Instance-Id"),
  ("bonita_process_instance_id_header", constant "X-Bonita-Process-Instance-Id"),
  ("bonita_root_process_instance_id_header", constant "X-Bonita-Root-Process-Instance-Id"),
  ("bonita_process_definition_id_header", constant "X-Bonita-Process-Definition-Id"),
  ("bonita_task_assignee_id_header", constant "X-Bonita-Task-Assignee-Id"),
  ("do_not_follow_redirect", truth false),
  ("ignore_body", truth false),
  ("fail_on_http_4xx", truth false),
  ("fail_on_http_5xx", truth false),
  ("failure_exception_codes", table),
  ("retry_on_http_5xx", truth false),
  ("retry_additional_codes", table),
  ("max_body_content_printed", number (some 1000)),
  ("sensitive_headers_printed", truth false),
  ("TLS", truth true),
  ("hostname_verifier", emptyExpression),
  ("trust_store_file", emptyExpression),
  ("trust_store_password", emptyExpression),
  ("key_store_file", emptyExpression),
  ("key_store_password", emptyExpression),
  ("auth_type", constant "NONE"),
  ("auth_username", emptyExpression),
  ("auth_password", emptyExpression),
  ("auth_host", emptyExpression),
  ("auth_port", number none),
  ("auth_realm", emptyExpression),
  ("auth_preemptive", truth true),
  ("oauth2_token_endpoint", emptyExpression),
  ("oauth2_client_id", emptyExpression),
  ("oauth2_client_secret", emptyExpression),
  ("oauth2_scope", emptyExpression),
  ("oauth2_token", emptyExpression),
  ("oauth2_code", emptyExpression),
  ("oauth2_code_verifier", emptyExpression),
  ("oauth2_redirect_uri", emptyExpression),
  ("proxy_protocol", constant "HTTP"),
  ("proxy_host", emptyExpression),
  ("proxy_port", number none),
  ("proxy_username", emptyExpression),
  ("proxy_password", emptyExpression),
  ("automatic_proxy_resolution", truth false),
  ("socket_timeout_ms", number (some 60000)),
  ("connection_timeout_ms", number (some 60000)),
  ("trust_strategy", constant "DEFAULT")]

def requestParameters (objects : OrderedMap BusinessObject) (request : OrderedMap Json)
    (url : String) : List (String × Draft) :=
  let (media, charset) :=
    splitContentType (headerValue? ((request.value? "headers").getD .null) "Content-Type")
  let body := match bodyText? (request.value? "body") with
    | none | some "" => []
    | some body => [("body", pattern objects (some body))]
  [("url", constant url), ("contentType", constant media), ("charset", constant charset)] ++ body

/-- The connector of a call; none without a request that has a URL. -/
def callConnector? (objects : OrderedMap BusinessObject) (descriptor : OrderedMap Json)
    (task : Option String) : Except Failure (Option Connector) := do
  match objectMember? descriptor "request" with
  | none => return none
  | some request =>
    match (textMember? request "url").filter fun url => !Text.isBlankText url with
    | none => return none
    | some url =>
      let method ← methodOf (request.value? "method")
      return some {
        name := connectorName descriptor task "restConnector"
        definition := callDefinition method
        event := "ON_ENTER"
        version := Defaults.restVersion
        parameters := requestParameters objects request url ++ callDefaults }

end ProcessForge.Bonita
