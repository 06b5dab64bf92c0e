import NavekFiber.Machine.Bytes

/-! # HTTP messages -/

namespace NavekFiber

namespace Proto

/-- `HttpMessagesList`. The text of 418 is not ASCII, and 302 stands in the list twice. -/
def httpMessagesList : List (ℕ × List UInt8) :=
  [ (0, bytes ""),
    (100, bytes "Continue"),
    (101, bytes "Switching Protocols"),
    (102, bytes "Processing"),
    (200, bytes "OK"),
    (201, bytes "Created"),
    (202, bytes "Accepted"),
    (203, bytes "Non-Authoritative Information"),
    (204, bytes "No Content"),
    (205, bytes "Reset Content"),
    (206, bytes "Partial Content"),
    (207, bytes "Multi-Status"),
    (208, bytes "Already Reported"),
    (226, bytes "IM Used"),
    (300, bytes "Multiple Choices"),
    (301, bytes "Moved Permanently"),
    (302, bytes "Moved Temporarily"),
    (302, bytes "Found"),
    (303, bytes "See Other"),
    (304, bytes "Not Modified"),
    (305, bytes "Use Proxy"),
    (306, bytes "Reserved"),
    (307, bytes "Temporary Redirect"),
    (308, bytes "Permanent Redirect"),
    (400, bytes "Bad Request"),
    (401, bytes "Unauthorized"),
    (402, bytes "Payment Required"),
    (403, bytes "Forbidden"),
    (404, bytes "Not Found"),
    (405, bytes "Method Not Allowed"),
    (406, bytes "Not Acceptable"),
    (407, bytes "Proxy Authentication Required"),
    (408, bytes "Request Timeout"),
    (409, bytes "Conflict"),
    (410, bytes "Gone"),
    (411, bytes "Length Required"),
    (412, bytes "Precondition Failed"),
    (413, bytes "Payload Too Large"),
    (414, bytes "URI Too Long"),
    (415, bytes "Unsupported Media Type"),
    (416, bytes "Range Not Satisfiable"),
    (417, bytes "Expectation Failed"),
    (418, bytes "I" ++ 0x92 :: bytes "m a teapot"),
    (419, bytes "Authentication Timeout"),
    (421, bytes "Misdirected Request"),
    (422, bytes "Unprocessable Entity"),
    (423, bytes "Locked"),
    (424, bytes "Failed Dependency"),
    (426, bytes "Upgrade Required"),
    (428, bytes "Precondition Required"),
    (429, bytes "Too Many Requests"),
    (431, bytes "Request Header Fields Too Large"),
    (449, bytes "Retry With"),
    (451, bytes "Unavailable For Legal Reasons"),
    (499, bytes "Client Closed Request"),
    (500, bytes "Internal Server Error"),
    (501, bytes "Not Implemented"),
    (502, bytes "Bad Gateway"),
    (503, bytes "Service Unavailable"),
    (504, bytes "Gateway Timeout"),
    (505, bytes "HTTP Version Not Supported"),
    (506, bytes "Variant Also Negotiates"),
    (507, bytes "Insufficient Storage"),
    (508, bytes "Loop Detected"),
    (509, bytes "Bandwidth Limit Exceeded"),
    (510, bytes "Not Extended"),
    (511, bytes "Network Authentication Required"),
    (520, bytes "Unknown Error"),
    (521, bytes "Web Server Is Down"),
    (522, bytes "Connection Timed Out"),
    (523, bytes "Origin Is Unreachable"),
    (524, bytes "A Timeout Occurred"),
    (525, bytes "SSL Handshake Failed"),
    (526, bytes "Invalid SSL Certificate") ]

/-- `HttpMessage`: the message given, or the one of the code, or the one of code zero. The table keeps
the first entry of a code. -/
def httpMessage (code : ℕ) (message : Option (List UInt8)) : List UInt8 :=
  match message with
  | some message => message
  | none => ((httpMessagesList.lookup code).or (httpMessagesList.lookup 0)).getD []

end Proto

end NavekFiber
